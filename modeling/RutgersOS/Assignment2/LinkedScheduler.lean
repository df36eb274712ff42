import RutgersOS.Assignment2.ReadyQueues
import RutgersOS.Pthread.LinkedQueue

namespace RutgersOS.Assignment2

open RutgersOS.Memory RutgersOS.Pthread

/-! The scheduler on the queue nodes in memory: the two queues are pointers, and
each operation reads and writes the nodes that it reaches.  The caller of
`my_pthread_create` gives the addresses that `myallocate` returns and what the
fresh nodes hold as their `next`. -/

structure LinkedScheduler (Ptr : Type) where
  threadIDS : Nat
  mainEnqueued : Bool
  current : Option Nat
  queuePriority1 : LinkedQueue Ptr
  queuePriority2 : LinkedQueue Ptr
  threads : Nat → Option Thread
  nodes : Cells Ptr QueueNode

namespace LinkedScheduler

variable {Ptr : Type}

def initializeScheduler (stale : Int) : LinkedScheduler Ptr where
  threadIDS := 1
  mainEnqueued := false
  current := some 0
  queuePriority1 := ⟨none, 0⟩
  queuePriority2 := ⟨none, 0⟩
  threads := Function.update (fun _ => none) 0 (some ⟨.active, stale⟩)
  nodes := ⟨fun _ => none, 0⟩

def setThread (s : LinkedScheduler Ptr) (t : Nat) (thread : Option Thread) :
    LinkedScheduler Ptr :=
  { s with threads := Function.update s.threads t thread }

def threadOf (s : LinkedScheduler Ptr) (node : Ptr) : Option Nat :=
  (s.nodes.cell node).map fun cell => cell.1.thread

def peek1 (s : LinkedScheduler Ptr) : Option (Option Ptr) :=
  s.queuePriority1.peek s.nodes

def peek2 (s : LinkedScheduler Ptr) : Option (Option Ptr) :=
  s.queuePriority2.peek s.nodes

def runNext (s : LinkedScheduler Ptr) (temp : Nat) (nextThreadNode : Ptr) :
    Option (LinkedScheduler Ptr × Switch) := do
  let nextThread ← s.threadOf nextThreadNode
  let thread ← s.threads nextThread
  let s := s.setThread nextThread (some { thread with state := .active })
  some ({ s with current := some nextThread }, .swap temp nextThread)

variable [DecidableEq Ptr]

/-- Every caller of `dequeue` reads the node that it returns. -/
def dequeue1 (s : LinkedScheduler Ptr) : Option (Ptr × LinkedScheduler Ptr) := do
  let (node, nodes, queue) ← s.queuePriority1.dequeue s.nodes
  let node ← node
  some (node, { s with nodes := nodes, queuePriority1 := queue })

def dequeue2 (s : LinkedScheduler Ptr) : Option (Ptr × LinkedScheduler Ptr) := do
  let (node, nodes, queue) ← s.queuePriority2.dequeue s.nodes
  let node ← node
  some (node, { s with nodes := nodes, queuePriority2 := queue })

def enqueue1 (s : LinkedScheduler Ptr) (node : Ptr) : Option (LinkedScheduler Ptr) := do
  let (nodes, queue) ← s.queuePriority1.enqueue s.nodes node
  some { s with nodes := nodes, queuePriority1 := queue }

def enqueue2 (s : LinkedScheduler Ptr) (node : Ptr) : Option (LinkedScheduler Ptr) := do
  let (nodes, queue) ← s.queuePriority2.enqueue s.nodes node
  some { s with nodes := nodes, queuePriority2 := queue }

def setPriority (s : LinkedScheduler Ptr) (node : Ptr) (priority : Int) :
    Option (LinkedScheduler Ptr) := do
  let (value, _) ← s.nodes.cell node
  let nodes ← s.nodes.write node { value with priority := priority }
  some { s with nodes := nodes }

def requeue (s : LinkedScheduler Ptr) (node : Ptr) : Option (LinkedScheduler Ptr) := do
  let currentThread ← s.threadOf node
  let thread ← s.threads currentThread
  if thread.state = .active ∧ thread.state ≠ .completed then
    let s := s.setThread currentThread (some { thread with state := .active })
    let s ← s.setPriority node 2
    s.enqueue2 node
  else some s

def myPthreadYield (s : LinkedScheduler Ptr) : Option (LinkedScheduler Ptr × Switch) := do
  match ← s.peek1 with
  | some currentThreadNode =>
      let currentThread ← s.threadOf currentThreadNode
      match s.current with
      | none =>
          some ({ s with current := some currentThread },
            .resume currentThread)
      | some temp =>
          if temp ≠ currentThread then
            some ({ s with current := some currentThread },
              .swap temp currentThread)
          else
            let (node, s) ← s.dequeue1
            let s ← s.requeue node
            match ← s.peek1 with
            | some nextThreadNode => s.runNext temp nextThreadNode
            | none =>
                let nextThreadNode ← ← s.peek2
                s.runNext temp nextThreadNode
  | none =>
      match ← s.peek2 with
      | some currentThreadNode =>
          let currentThread ← s.threadOf currentThreadNode
          match s.current with
          | none =>
              some ({ s with current := some currentThread },
                .resume currentThread)
          | some temp =>
              if temp ≠ currentThread then
                some ({ s with current := some currentThread },
                  .swap temp currentThread)
              else
                let (node, s) ← s.dequeue2
                let s ← s.requeue node
                let nextThreadNode ← ← s.peek2
                s.runNext temp nextThreadNode
      | none => some (s, .stay)

/-- What `myallocate` returns for a node: its address and what it held as `next`. -/
structure Fresh (Ptr : Type) where
  address : Ptr
  next : Option Ptr

def allocate (s : LinkedScheduler Ptr) (fresh : Fresh Ptr) (node : QueueNode) :
    LinkedScheduler Ptr :=
  { s with nodes := s.nodes.allocate fresh.address node fresh.next }

def enqueueThread (s : LinkedScheduler Ptr) (stale : Int) (newNode mainNode : Fresh Ptr) :
    Option (LinkedScheduler Ptr) := do
  let thread := s.threadIDS
  let s := s.setThread thread (some ⟨.active, stale⟩)
  let s := { s with threadIDS := thread + 1 }
  let s := s.allocate newNode ⟨thread, 1⟩
  let s ← s.enqueue1 newNode.address
  if s.mainEnqueued then some s
  else
    let s := { s with mainEnqueued := true }
    let current ← s.current
    let s := s.allocate mainNode ⟨current, 1⟩
    s.enqueue1 mainNode.address

def myPthreadCreate (s : LinkedScheduler Ptr) (stale : Int) (newNode mainNode : Fresh Ptr) :
    Option (LinkedScheduler Ptr × Switch) := do
  let s ← s.enqueueThread stale newNode mainNode
  s.myPthreadYield

/-- The thread has completed and its node is released. -/
def complete (s : LinkedScheduler Ptr) (removedNode : Ptr) (valuePtr : Int) :
    Option (LinkedScheduler Ptr) := do
  let removedThread ← s.threadOf removedNode
  let thread ← s.threads removedThread
  let thread := { thread with state := .completed }
  let thread :=
    if valuePtr ≠ 0 then { thread with returnValue := valuePtr } else thread
  let s := s.setThread removedThread (some thread)
  let nodes ← s.nodes.release removedNode
  some { s with nodes := nodes }

def removeSecond (s : LinkedScheduler Ptr) (queuePriority2Head : Option Ptr) (valuePtr : Int) :
    Option (LinkedScheduler Ptr) :=
  match queuePriority2Head with
  | none => some s
  | some _ => do
      let (removedNode, s) ← s.dequeue2
      s.complete removedNode valuePtr

def removeCurrent (s : LinkedScheduler Ptr) (valuePtr : Int) :
    Option (LinkedScheduler Ptr) := do
  let currentThread ← s.current
  let queuePriority1Head ← s.peek1
  let queuePriority2Head ← s.peek2
  let s ←
    match queuePriority1Head with
    | none => s.removeSecond queuePriority2Head valuePtr
    | some queuePriority1Head => do
        let headThread ← s.threadOf queuePriority1Head
        if currentThread = headThread then
          let (removedNode, s) ← s.dequeue1
          s.complete removedNode valuePtr
        else s.removeSecond queuePriority2Head valuePtr
  some { s with current := none }

def myPthreadExit (s : LinkedScheduler Ptr) (valuePtr : Int) :
    Option (LinkedScheduler Ptr × Switch) := do
  let s ← s.removeCurrent valuePtr
  s.myPthreadYield

def myPthreadJoin (s : LinkedScheduler Ptr) (thread : Nat) :
    Option (LinkedScheduler Ptr × Switch × Option Int) := do
  let struct ← s.threads thread
  if struct.state ≠ .completed then
    let (s, switch) ← s.myPthreadYield
    some (s, switch, none)
  else some (s.setThread thread none, .stay, some struct.returnValue)

inductive Op (Ptr : Type) where
  | create (stale : Int) (newNode mainNode : Fresh Ptr)
  | yield
  | exit (valuePtr : Int)
  | join (thread : Nat)

def step (s : LinkedScheduler Ptr) : Op Ptr → Option (LinkedScheduler Ptr)
  | .create stale newNode mainNode =>
      (s.myPthreadCreate stale newNode mainNode).map Prod.fst
  | .yield => s.myPthreadYield.map Prod.fst
  | .exit valuePtr => (s.myPthreadExit valuePtr).map Prod.fst
  | .join thread => (s.myPthreadJoin thread).map Prod.fst

end LinkedScheduler

end RutgersOS.Assignment2
