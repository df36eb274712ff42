import Mathlib.Logic.Function.Basic
import RutgersOS.Pthread.Queue

namespace RutgersOS.Assignment2

open RutgersOS.Pthread

/-! The scheduler of `Assignment2/my_pthread.c` without its page moves.  A
`void *` is an integer with `0` for NULL, and `none` stands for a dereferenced
NULL or released pointer. -/

structure Thread where
  state : MyPthreadState
  returnValue : Int

structure Scheduler where
  threadIDS : Nat
  mainEnqueued : Bool
  current : Option Nat
  queuePriority1 : Queue QueueNode
  queuePriority2 : Queue QueueNode
  threads : Nat → Option Thread

/-- How a call of `my_pthread_yield` ends: it returns, it jumps with `setcontext`
or it changes contexts with `swapcontext`. -/
inductive Switch where
  | stay
  | resume (next : Nat)
  | swap (temp next : Nat)
  deriving DecidableEq

namespace Scheduler

/-- `initializeScheduler`: the main thread runs and is in no queue yet. -/
def initializeScheduler (stale : Int) : Scheduler where
  threadIDS := 1
  mainEnqueued := false
  current := some 0
  queuePriority1 := .empty
  queuePriority2 := .empty
  threads := Function.update (fun _ => none) 0 (some ⟨.active, stale⟩)

def setThread (s : Scheduler) (t : Nat) (thread : Option Thread) : Scheduler :=
  { s with threads := Function.update s.threads t thread }

/-- The node of the thread that ran goes to the end of `queue_priority_2`. -/
def requeue (s : Scheduler) (node : QueueNode) : Option Scheduler := do
  let thread ← s.threads node.thread
  if thread.state = .active ∧ thread.state ≠ .completed then
    let s := s.setThread node.thread (some { thread with state := .active })
    some
      { s with
        queuePriority2 :=
          s.queuePriority2.enqueue { node with priority := 2 } }
  else some s

def runNext (s : Scheduler) (temp : Nat) (nextThreadNode : QueueNode) :
    Option (Scheduler × Switch) := do
  let nextThread := nextThreadNode.thread
  let thread ← s.threads nextThread
  let s := s.setThread nextThread (some { thread with state := .active })
  some ({ s with current := some nextThread }, .swap temp nextThread)

def myPthreadYield (s : Scheduler) : Option (Scheduler × Switch) :=
  match s.queuePriority1.peek with
  | some currentThreadNode =>
      let currentThread := currentThreadNode.thread
      match s.current with
      | none =>
          some ({ s with current := some currentThread },
            .resume currentThread)
      | some temp =>
          if temp ≠ currentThread then
            some ({ s with current := some currentThread },
              .swap temp currentThread)
          else do
            let (node, queue) ← s.queuePriority1.dequeue
            let s ← requeue { s with queuePriority1 := queue } node
            let nextThreadNode ←
              s.queuePriority1.peek.or s.queuePriority2.peek
            s.runNext temp nextThreadNode
  | none =>
      match s.queuePriority2.peek with
      | some currentThreadNode =>
          let currentThread := currentThreadNode.thread
          match s.current with
          | none =>
              some ({ s with current := some currentThread },
                .resume currentThread)
          | some temp =>
              if temp ≠ currentThread then
                some ({ s with current := some currentThread },
                  .swap temp currentThread)
              else do
                let (node, queue) ← s.queuePriority2.dequeue
                let s ← requeue { s with queuePriority2 := queue } node
                let nextThreadNode ← s.queuePriority2.peek
                s.runNext temp nextThreadNode
      | none => some (s, .stay)

/-- `my_pthread_create` up to its page table: the thread struct and the nodes.
`stale` is what the allocated struct holds as its `return_value`. -/
def enqueueThread (s : Scheduler) (stale : Int) : Option Scheduler := do
  let thread := s.threadIDS
  let s := s.setThread thread (some ⟨.active, stale⟩)
  let s :=
    { s with
      threadIDS := thread + 1
      queuePriority1 := s.queuePriority1.enqueue ⟨thread, 1⟩ }
  if s.mainEnqueued then some s
  else
    let current ← s.current
    some
      { s with
        mainEnqueued := true
        queuePriority1 := s.queuePriority1.enqueue ⟨current, 1⟩ }

def myPthreadCreate (s : Scheduler) (stale : Int) :
    Option (Scheduler × Switch) := do
  let s ← s.enqueueThread stale
  s.myPthreadYield

def complete (s : Scheduler) (removedNode : QueueNode) (valuePtr : Int) :
    Option Scheduler := do
  let thread ← s.threads removedNode.thread
  let thread := { thread with state := .completed }
  let thread :=
    if valuePtr ≠ 0 then { thread with returnValue := valuePtr } else thread
  some (s.setThread removedNode.thread (some thread))

/-- The second branch of `my_pthread_exit`: it compares no thread ids. -/
def removeSecond (s : Scheduler) (valuePtr : Int) : Option Scheduler :=
  match s.queuePriority2.peek with
  | none => some s
  | some _ => do
      let (removedNode, queue) ← s.queuePriority2.dequeue
      complete { s with queuePriority2 := queue } removedNode valuePtr

def removeCurrent (s : Scheduler) (valuePtr : Int) : Option Scheduler := do
  let currentThread ← s.current
  let s ←
    match s.queuePriority1.peek with
    | none => s.removeSecond valuePtr
    | some queuePriority1Head =>
        if currentThread = queuePriority1Head.thread then do
          let (removedNode, queue) ← s.queuePriority1.dequeue
          complete { s with queuePriority1 := queue } removedNode valuePtr
        else s.removeSecond valuePtr
  some { s with current := none }

def myPthreadExit (s : Scheduler) (valuePtr : Int) :
    Option (Scheduler × Switch) := do
  let s ← s.removeCurrent valuePtr
  s.myPthreadYield

/-- One round of `my_pthread_join`: a yield while the thread has not completed,
or else its `return_value` and the release of its struct. -/
def myPthreadJoin (s : Scheduler) (thread : Nat) :
    Option (Scheduler × Switch × Option Int) := do
  let struct ← s.threads thread
  if struct.state ≠ .completed then
    let (s, switch) ← s.myPthreadYield
    some (s, switch, none)
  else some (s.setThread thread none, .stay, some struct.returnValue)

inductive Op where
  | create (stale : Int)
  | yield
  | exit (valuePtr : Int)
  | join (thread : Nat)

def step (s : Scheduler) : Op → Option Scheduler
  | .create stale => (s.myPthreadCreate stale).map Prod.fst
  | .yield => s.myPthreadYield.map Prod.fst
  | .exit valuePtr => (s.myPthreadExit valuePtr).map Prod.fst
  | .join thread => (s.myPthreadJoin thread).map Prod.fst

def Op.exits (current : Nat) (exited : List Nat) : Op → List Nat
  | .exit _ => current :: exited
  | _ => exited

/-- The schedulers after the first `my_pthread_create` and any further calls of
the running threads, with the threads that called `my_pthread_exit`. -/
inductive Reachable : List Nat → Scheduler → Prop
  | create {s : Scheduler} (garbage stale : Int) :
      (initializeScheduler garbage).step (.create stale) = some s →
        Reachable [] s
  | step {exited : List Nat} {s next : Scheduler} {current : Nat} (op : Op) :
      Reachable exited s → s.current = some current → s.step op = some next →
        Reachable (op.exits current exited) next

end Scheduler

end RutgersOS.Assignment2
