namespace RutgersOS.Pthread

/-! The types of `my_pthread_t.h` and the singly linked queues of `my_pthread.c`,
which both assignments share.  A `my_pthread_t` is its `thread_id`.  `tail` lists
the nodes along their `next` pointers, so the newest node comes first. -/

inductive MyPthreadState where
  | active
  | waiting
  | completed
  deriving DecidableEq

structure QueueNode where
  thread : Nat
  priority : Int

structure Queue (α : Type u) where
  tail : List α
  size : Int

namespace Queue

variable {α : Type u}

def empty : Queue α where
  tail := []
  size := 0

def enqueue (newNode : α) (queue : Queue α) : Queue α where
  tail := newNode :: queue.tail
  size := queue.size + 1

def peek (queue : Queue α) : Option α :=
  queue.tail.getLast?

def dequeue (queue : Queue α) : Option (α × Queue α) :=
  queue.tail.getLast?.map fun iter =>
    (iter, { tail := queue.tail.dropLast, size := queue.size - 1 })

/-- The nodes from the oldest to the newest: what the queue is for. -/
def waiting (queue : Queue α) : List α :=
  queue.tail.reverse

def Counted (queue : Queue α) : Prop :=
  queue.size = queue.tail.length

@[simp] theorem waiting_empty : (empty : Queue α).waiting = [] :=
  rfl

@[simp] theorem waiting_enqueue (newNode : α) (queue : Queue α) :
    (queue.enqueue newNode).waiting = queue.waiting ++ [newNode] :=
  List.reverse_cons

theorem peek_eq_head (queue : Queue α) : queue.peek = queue.waiting.head? :=
  List.head?_reverse.symm

theorem peek_eq_none {queue : Queue α} :
    queue.peek = none ↔ queue.waiting = [] := by
  rw [peek_eq_head, List.head?_eq_none_iff]

theorem tail_of_waiting {queue : Queue α} {node : α} {rest : List α}
    (h : queue.waiting = node :: rest) :
    queue.tail = rest.reverse ++ [node] := by
  rw [waiting, List.reverse_eq_iff, List.reverse_cons] at h
  exact h

theorem dequeue_waiting {queue : Queue α} {node : α} {rest : List α}
    (h : queue.waiting = node :: rest) :
    ∃ after, queue.dequeue = some (node, after) ∧ after.waiting = rest ∧
      (queue.Counted → after.Counted) := by
  have htail := tail_of_waiting h
  refine ⟨⟨rest.reverse, queue.size - 1⟩, ?_, List.reverse_reverse rest, ?_⟩
  · rw [dequeue, htail, List.getLast?_concat, List.dropLast_concat]
    rfl
  · intro hcounted
    unfold Counted at hcounted ⊢
    rw [htail, List.length_append, List.length_singleton] at hcounted
    change queue.size - 1 = (rest.reverse.length : Int)
    omega

theorem waiting_dequeue {queue after : Queue α} {node : α}
    (h : queue.dequeue = some (node, after)) :
    queue.waiting = node :: after.waiting := by
  unfold dequeue at h
  obtain ⟨iter, hlast, heq⟩ := Option.map_eq_some_iff.mp h
  obtain ⟨rfl, rfl⟩ := Prod.mk.inj heq
  obtain ⟨front, hfront⟩ := List.getLast?_eq_some_iff.mp hlast
  rw [waiting, waiting, hfront, List.reverse_append, List.dropLast_concat]
  rfl

theorem Counted.enqueue {queue : Queue α} (h : queue.Counted) (newNode : α) :
    (queue.enqueue newNode).Counted := by
  unfold Counted at h ⊢
  simp [Queue.enqueue, h]

end Queue

end RutgersOS.Pthread
