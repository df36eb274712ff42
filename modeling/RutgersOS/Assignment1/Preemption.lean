import Mathlib.Logic.Function.Basic
import RutgersOS.Pthread.Queue

namespace RutgersOS.Assignment1

open RutgersOS.Pthread

/-! `Assignment1/my_pthread.c` with the SIGALRM handler `timer_handler`
deliverable between any two accesses to the queues and to `current`.  A call is
a frame that says where it stands and what its locals hold. -/

inductive Frame where
  | yieldEntry
  /-- `queue_priority_1` was empty. -/
  | firstEmpty
  /-- `current_thread` heads `queue_priority_1`, or `queue_priority_2`. -/
  | chosen (first : Bool) (currentThread : Nat)
  | dequeued (first : Bool) (node : QueueNode)
  | requeued (first : Bool)
  | picked (nextThread : Nat)
  | createEntry
  | createEnqueued
  /-- `current` is the main thread, whose node is not enqueued yet. -/
  | createMain
  | exitEntry
  | exitFirst (currentThread : Nat) (head1 : Option Nat)
  | exitHeads (currentThread : Nat) (head1 head2 : Option Nat)
  | exitDequeued (currentThread : Nat) (removedNode : QueueNode)
  | exitRemoved

/-- `stack` holds the calls under way of the executing thread, innermost first,
and is empty in user code.  `context` holds the stacks that `swapcontext` saved
and nothing has resumed since: a context is good for one resumption. -/
structure State where
  threadIDS : Nat
  isInitialized : Bool
  handlerInstalled : Bool
  current : Option Nat
  queuePriority1 : Queue QueueNode
  queuePriority2 : Queue QueueNode
  state : Nat → MyPthreadState
  context : Nat → Option (List Frame)
  stack : List Frame

/-- The frame's next access gives the processor to a thread. -/
def Frame.Switches (current : Option Nat) : Frame → Prop
  | .chosen _ currentThread => current ≠ some currentThread
  | .picked _ => True
  | _ => False

def Frame.exits (exited : List Nat) : Frame → List Nat
  | .exitDequeued currentThread _ => currentThread :: exited
  | _ => exited

inductive Call where
  | create
  | yield
  | exit

def Call.entry : Call → Frame
  | .create => .createEntry
  | .yield => .yieldEntry
  | .exit => .exitEntry

inductive Event where
  | call (routine : Call)
  | advance
  | deliver

namespace State

/-- The program starts as the main thread, which has no struct yet. -/
def initial : State where
  threadIDS := 1
  isInitialized := false
  handlerInstalled := false
  current := none
  queuePriority1 := .empty
  queuePriority2 := .empty
  state _ := .active
  context _ := none
  stack := []

def push (s : State) (frame : Frame) : State :=
  { s with stack := frame :: s.stack }

def setState (s : State) (t : Nat) (state : MyPthreadState) : State :=
  { s with state := Function.update s.state t state }

/-- `current = t; setcontext(t->context)`.  After the last update of a call no
signal is delivered before the context change. -/
def setcontext (s : State) (t : Nat) : Option State :=
  (s.context t).map fun stack =>
    { s with
      current := some t
      context := Function.update s.context t none
      stack := stack }

/-- `current = t; swapcontext(temp->context, t->context)`. -/
def swapcontext (s : State) (temp t : Nat) : Option State :=
  setcontext
    { s with context := Function.update s.context temp (some s.stack) } t

def dequeue1 (s : State) : Option (QueueNode × State) :=
  s.queuePriority1.dequeue.map fun result =>
    (result.1, { s with queuePriority1 := result.2 })

def dequeue2 (s : State) : Option (QueueNode × State) :=
  s.queuePriority2.dequeue.map fun result =>
    (result.1, { s with queuePriority2 := result.2 })

/-- One access of the innermost call, whose frame has been taken off `s.stack`.
The result is `none` where the code dereferences NULL. -/
def advance (s : State) : Frame → Option State
  | .yieldEntry =>
      let s := { s with handlerInstalled := true }
      match s.queuePriority1.peek with
      | some node => some (s.push (.chosen true node.thread))
      | none => some (s.push .firstEmpty)
  | .firstEmpty =>
      match s.queuePriority2.peek with
      | some node => some (s.push (.chosen false node.thread))
      | none => some s
  | .chosen first currentThread =>
      match s.current with
      | none => s.setcontext currentThread
      | some temp =>
          if temp ≠ currentThread then s.swapcontext temp currentThread
          else
            (if first then s.dequeue1 else s.dequeue2).map fun result =>
              result.2.push (.dequeued first result.1)
  | .dequeued first node =>
      let s :=
        if s.state node.thread = .active ∧ s.state node.thread ≠ .completed then
          { s.setState node.thread .active with
            queuePriority2 :=
              s.queuePriority2.enqueue { node with priority := 2 } }
        else s
      some (s.push (.requeued first))
  | .requeued true =>
      match s.queuePriority1.peek with
      | some node => some (s.push (.picked node.thread))
      | none => some (s.push (.requeued false))
  | .requeued false =>
      s.queuePriority2.peek.map fun node => s.push (.picked node.thread)
  | .picked nextThread =>
      s.current.bind fun temp =>
        (s.setState nextThread .active).swapcontext temp nextThread
  | .createEntry =>
      let thread := s.threadIDS
      let s := s.setState thread .active
      some
        (push
          { s with
            threadIDS := thread + 1
            context := Function.update s.context thread (some [])
            queuePriority1 := s.queuePriority1.enqueue ⟨thread, 1⟩ }
          .createEnqueued)
  | .createEnqueued =>
      if s.isInitialized then some (s.push .yieldEntry)
      else
        let s := s.setState 0 .active
        some
          (push { s with isInitialized := true, current := some 0 } .createMain)
  | .createMain =>
      some
        (push
          { s with queuePriority1 := s.queuePriority1.enqueue ⟨0, 1⟩ }
          .yieldEntry)
  | .exitEntry =>
      s.current.map fun currentThread =>
        s.push (.exitFirst currentThread
          (s.queuePriority1.peek.map QueueNode.thread))
  | .exitFirst currentThread head1 =>
      some (s.push (.exitHeads currentThread head1
        (s.queuePriority2.peek.map QueueNode.thread)))
  | .exitHeads currentThread head1 head2 =>
      if head1 = some currentThread then
        s.dequeue1.map fun result =>
          result.2.push (.exitDequeued currentThread result.1)
      else if head2 ≠ none then
        s.dequeue2.map fun result =>
          result.2.push (.exitDequeued currentThread result.1)
      else some (s.push .exitRemoved)
  | .exitDequeued _ removedNode =>
      some ((s.setState removedNode.thread .completed).push .exitRemoved)
  | .exitRemoved => some (push { s with current := none } .yieldEntry)

/-- A delivered signal calls `my_pthread_yield` on top of what it interrupts. -/
def step (s : State) : Event → Option State
  | .call routine =>
      match s.stack with
      | [] => some (s.push routine.entry)
      | _ :: _ => none
  | .advance =>
      match s.stack with
      | [] => none
      | frame :: rest => advance { s with stack := rest } frame
  | .deliver => if s.handlerInstalled then some (s.push .yieldEntry) else none

def ready (s : State) : List Nat :=
  (s.queuePriority1.waiting ++ s.queuePriority2.waiting).map
    QueueNode.thread

def Switches (s : State) : Prop :=
  match s.stack with
  | [] => False
  | frame :: _ => frame.Switches s.current

def exits (s : State) (exited : List Nat) : Event → List Nat
  | .advance =>
      match s.stack with
      | [] => exited
      | frame :: _ => frame.exits exited
  | _ => exited

/-- The states of the runs whose events are all `Admitted`, with the threads
that have exited. -/
inductive Reachable (Admitted : State → Event → Prop) : List Nat → State → Prop
  | initial : Reachable Admitted [] initial
  | step {exited : List Nat} {s next : State} (event : Event) :
      Reachable Admitted exited s → Admitted s event →
        s.step event = some next → Reachable Admitted (s.exits exited event) next

def run (Admitted : State → Event → Prop) [∀ s event, Decidable (Admitted s event)]
    (exited : List Nat) (s : State) : List Event → Option (List Nat × State)
  | [] => some (exited, s)
  | event :: events =>
      if Admitted s event then
        match s.step event with
        | none => none
        | some next => next.run Admitted (s.exits exited event) events
      else none

theorem Reachable.run (Admitted : State → Event → Prop)
    [∀ s event, Decidable (Admitted s event)] (events : List Event) :
    ∀ {exited exited' : List Nat} {s last : State}, Reachable Admitted exited s →
      s.run Admitted exited events = some (exited', last) →
        Reachable Admitted exited' last := by
  induction events with
  | nil =>
      intro exited exited' s last h hrun
      obtain ⟨rfl, rfl⟩ := Prod.mk.inj (Option.some.inj hrun)
      exact h
  | cons event events ih =>
      intro exited exited' s last h hrun
      simp only [State.run] at hrun
      split at hrun
      · next hadmitted =>
          cases hstep : s.step event with
          | none => simp [hstep] at hrun
          | some next =>
              simp only [hstep] at hrun
              exact ih (.step event h hadmitted hstep) hrun
      · cases hrun

/-- Every thread that was created and has not exited runs or is ready, and none
is in a queue twice. -/
def NoneLost (exited : List Nat) (s : State) : Prop :=
  (∀ t, t < s.threadIDS → t ∉ exited → s.current = some t ∨ t ∈ s.ready) ∧
    s.ready.Nodup

end State

end RutgersOS.Assignment1
