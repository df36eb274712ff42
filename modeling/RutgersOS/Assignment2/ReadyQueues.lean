import Mathlib.Data.List.Nodup
import RutgersOS.Assignment2.Scheduler

namespace RutgersOS.Assignment2.Scheduler

open RutgersOS.Pthread

/-! The two queues, oldest node first, are one round-robin list whose head runs. -/

def nodes (s : Scheduler) : List QueueNode :=
  s.queuePriority1.waiting ++ s.queuePriority2.waiting

def ready (s : Scheduler) : List Nat :=
  s.nodes.map QueueNode.thread

structure Consistent (exited : List Nat) (s : Scheduler) : Prop where
  counted1 : s.queuePriority1.Counted
  counted2 : s.queuePriority2.Counted
  distinct : s.ready.Nodup
  active : ∀ t ∈ s.ready, ∃ value, s.threads t = some ⟨.active, value⟩
  completed : ∀ t thread, s.threads t = some thread → t ∉ s.ready →
    thread.state = .completed
  ready_iff : ∀ t, t ∈ s.ready ↔ t < s.threadIDS ∧ t ∉ exited
  exited_lt : ∀ t ∈ exited, t < s.threadIDS
  mainEnqueued : s.mainEnqueued = true

/-- The state between two calls: the oldest node of the first queue that has
one belongs to the running thread. -/
structure Settled (exited : List Nat) (s : Scheduler) : Prop where
  consistent : Consistent exited s
  running : s.current = s.ready.head?

theorem Consistent.reorder {exited : List Nat} {s next : Scheduler}
    (h : Consistent exited s) (hcounted1 : next.queuePriority1.Counted)
    (hcounted2 : next.queuePriority2.Counted)
    (hready : next.ready.Perm s.ready) (hthreads : next.threads = s.threads)
    (hids : next.threadIDS = s.threadIDS)
    (hmain : next.mainEnqueued = s.mainEnqueued) : Consistent exited next where
  counted1 := hcounted1
  counted2 := hcounted2
  distinct := hready.nodup_iff.mpr h.distinct
  active t ht := by
    rw [hthreads]
    exact h.active t (hready.mem_iff.mp ht)
  completed t thread hthread habsent := by
    rw [hthreads] at hthread
    exact h.completed t thread hthread fun ht => habsent (hready.mem_iff.mpr ht)
  ready_iff t := by
    rw [hready.mem_iff, hids]
    exact h.ready_iff t
  exited_lt t ht := by
    rw [hids]
    exact h.exited_lt t ht
  mainEnqueued := hmain.trans h.mainEnqueued

theorem setThread_eq_self {s : Scheduler} {t : Nat} {thread : Option Thread}
    (h : s.threads t = thread) : s.setThread t thread = s := by
  unfold setThread
  rw [← h, Function.update_eq_self]

theorem requeue_eq {s : Scheduler} {node : QueueNode} {value : Int}
    (h : s.threads node.thread = some ⟨.active, value⟩) :
    s.requeue node = some
      { s with
        queuePriority2 :=
          s.queuePriority2.enqueue { node with priority := 2 } } := by
  have hself := setThread_eq_self h
  simp [requeue, h, hself]

theorem runNext_eq {s : Scheduler} (temp : Nat) {node : QueueNode} {value : Int}
    (h : s.threads node.thread = some ⟨.active, value⟩) :
    s.runNext temp node =
      some ({ s with current := some node.thread }, .swap temp node.thread) := by
  have hself := setThread_eq_self h
  simp [runNext, h, hself]

def switchTo (current : Option Nat) (next : Nat) : Switch :=
  match current with
  | none => .resume next
  | some temp => .swap temp next

theorem yield_empty {s : Scheduler} (h : s.nodes = []) :
    s.myPthreadYield = some (s, .stay) := by
  obtain ⟨hfirst, hsecond⟩ := List.append_eq_nil_iff.mp h
  simp [myPthreadYield, Queue.peek_eq_none.mpr hfirst,
    Queue.peek_eq_none.mpr hsecond]

/-- A running thread that is not at the head gives way to the head. -/
theorem yield_to_head {s : Scheduler} {node : QueueNode} {rest : List QueueNode}
    (h : s.nodes = node :: rest) (hcurrent : s.current ≠ some node.thread) :
    s.myPthreadYield = some ({ s with current := some node.thread },
      switchTo s.current node.thread) := by
  cases hfirst : s.queuePriority1.waiting with
  | cons first others =>
      have hpeek : s.queuePriority1.peek = some node := by
        rw [nodes, hfirst] at h
        rw [Queue.peek_eq_head, hfirst, List.head?_cons, (List.cons.inj h).1]
      cases hrunning : s.current with
      | none => simp [myPthreadYield, hpeek, hrunning, switchTo]
      | some temp =>
          have hne : temp ≠ node.thread := fun heq =>
            hcurrent (hrunning.trans (congrArg some heq))
          simp [myPthreadYield, hpeek, hrunning, switchTo, hne]
  | nil =>
      have hnone := Queue.peek_eq_none.mpr hfirst
      have hpeek : s.queuePriority2.peek = some node := by
        rw [nodes, hfirst, List.nil_append] at h
        rw [Queue.peek_eq_head, h, List.head?_cons]
      cases hrunning : s.current with
      | none => simp [myPthreadYield, hnone, hpeek, hrunning, switchTo]
      | some temp =>
          have hne : temp ≠ node.thread := fun heq =>
            hcurrent (hrunning.trans (congrArg some heq))
          simp [myPthreadYield, hnone, hpeek, hrunning, switchTo, hne]

/-- What a yield of the thread at the head leaves. -/
structure Rotated (s next : Scheduler) (node : QueueNode)
    (rest : List QueueNode) : Prop where
  nodes : next.nodes = rest ++ [{ node with priority := 2 }]
  counted1 : s.queuePriority1.Counted → next.queuePriority1.Counted
  counted2 : s.queuePriority2.Counted → next.queuePriority2.Counted
  threads : next.threads = s.threads
  threadIDS : next.threadIDS = s.threadIDS
  mainEnqueued : next.mainEnqueued = s.mainEnqueued
  current : next.current = next.ready.head?
  first : next.queuePriority1.waiting = s.queuePriority1.waiting.tail

theorem yield_rotate {s : Scheduler} {node : QueueNode} {rest : List QueueNode}
    (h : s.nodes = node :: rest) (hcurrent : s.current = some node.thread)
    (hactive : ∀ n ∈ s.nodes, ∃ value,
      s.threads n.thread = some ⟨.active, value⟩) :
    ∃ next t, s.myPthreadYield = some (next, .swap node.thread t) ∧
      next.current = some t ∧ Rotated s next node rest := by
  obtain ⟨value, hnode⟩ := hactive node (h ▸ List.mem_cons_self)
  -- the head of the rotated list, which is the node itself if it is alone
  have hnext : ∃ after others, rest ++ [{ node with priority := 2 }] =
      after :: others ∧
        ∃ value, s.threads after.thread = some ⟨.active, value⟩ := by
    cases rest with
    | nil => exact ⟨_, [], rfl, value, hnode⟩
    | cons second others =>
        exact ⟨second, others ++ _, rfl,
          hactive second (h ▸ List.mem_cons_of_mem _ List.mem_cons_self)⟩
  obtain ⟨after, others, hafter, value', hthread⟩ := hnext
  cases hfirst : s.queuePriority1.waiting with
  | cons first firsts =>
      rw [nodes, hfirst] at h
      obtain ⟨rfl, hrest⟩ := List.cons.inj h
      have hpeek : s.queuePriority1.peek = some first := by
        rw [Queue.peek_eq_head, hfirst, List.head?_cons]
      obtain ⟨queue, hdequeue, hwaiting, hcounted⟩ :=
        Queue.dequeue_waiting hfirst
      have hrequeue := requeue_eq (s := { s with
        current := some first.thread, queuePriority1 := queue }) hnode
      have hhead : queue.peek.or (s.queuePriority2.enqueue
          { first with priority := 2 }).peek = some after := by
        rw [Queue.peek_eq_head, Queue.peek_eq_head, ← List.head?_append,
          hwaiting, Queue.waiting_enqueue, ← List.append_assoc]
        rw [show firsts ++ s.queuePriority2.waiting = rest from hrest, hafter,
          List.head?_cons]
      have hrun := runNext_eq (s := { s with
        current := some first.thread
        queuePriority1 := queue
        queuePriority2 :=
          s.queuePriority2.enqueue { first with priority := 2 } })
        first.thread hthread
      refine ⟨{ s with
        current := some after.thread
        queuePriority1 := queue
        queuePriority2 :=
          s.queuePriority2.enqueue { first with priority := 2 } },
        after.thread, ?_, rfl, ?_, hcounted, fun hsecond => hsecond.enqueue _,
        rfl, rfl, rfl, ?_, by rw [hwaiting, hfirst, List.tail_cons]⟩
      · simp only [myPthreadYield, hpeek, hcurrent, ne_eq, not_true_eq_false,
          if_false, hdequeue, Option.bind_eq_bind, Option.bind_some, hrequeue,
          hhead]
        exact hrun
      · simp [nodes, hwaiting, ← hrest]
      · simp only [ready, nodes, hwaiting, Queue.waiting_enqueue,
          ← List.append_assoc]
        rw [show firsts ++ s.queuePriority2.waiting = rest from hrest, hafter]
        rfl
  | nil =>
      have hnone := Queue.peek_eq_none.mpr hfirst
      rw [nodes, hfirst, List.nil_append] at h
      have hpeek : s.queuePriority2.peek = some node := by
        rw [Queue.peek_eq_head, h, List.head?_cons]
      obtain ⟨queue, hdequeue, hwaiting, hcounted⟩ := Queue.dequeue_waiting h
      have hrequeue := requeue_eq (s := { s with
        current := some node.thread, queuePriority2 := queue }) hnode
      have hhead : (queue.enqueue { node with priority := 2 }).peek =
          some after := by
        rw [Queue.peek_eq_head, Queue.waiting_enqueue, hwaiting, hafter,
          List.head?_cons]
      have hrun := runNext_eq (s := { s with
        current := some node.thread
        queuePriority2 := queue.enqueue { node with priority := 2 } })
        node.thread hthread
      refine ⟨{ s with
        current := some after.thread
        queuePriority2 := queue.enqueue { node with priority := 2 } },
        after.thread, ?_, rfl, ?_, id, fun hsecond =>
        (hcounted hsecond).enqueue _, rfl, rfl, rfl, ?_, by rw [hfirst, List.tail_nil]⟩
      · simp only [myPthreadYield, hnone, hpeek, hcurrent, ne_eq,
          not_true_eq_false, if_false, hdequeue, Option.bind_eq_bind,
          Option.bind_some, hrequeue, hhead]
        exact hrun
      · simp [nodes, hfirst, hwaiting]
      · simp only [ready, nodes, hfirst, List.nil_append, hwaiting,
          Queue.waiting_enqueue, hafter]
        rfl

theorem Consistent.node_active {exited : List Nat} {s : Scheduler}
    (h : Consistent exited s) (n : QueueNode) (hn : n ∈ s.nodes) :
    ∃ value, s.threads n.thread = some ⟨.active, value⟩ :=
  h.active n.thread (List.mem_map_of_mem hn)

theorem yield_settled {exited : List Nat} {s : Scheduler}
    (h : Consistent exited s) (hcurrent : ∀ c, s.current = some c → c ∈ s.ready) :
    ∃ next switch, s.myPthreadYield = some (next, switch) ∧
      Settled exited next := by
  cases hnodes : s.nodes with
  | nil =>
      have hready : s.ready = [] := by
        rw [ready, hnodes, List.map_nil]
      refine ⟨s, .stay, yield_empty hnodes, h, ?_⟩
      cases hrunning : s.current with
      | none => rw [hready, List.head?_nil]
      | some c =>
          have hmem := hcurrent c hrunning
          rw [hready] at hmem
          cases hmem
  | cons node rest =>
      have hready : s.ready = node.thread :: rest.map QueueNode.thread := by
        rw [ready, hnodes, List.map_cons]
      rcases Classical.em (s.current = some node.thread) with hhead | hother
      · obtain ⟨next, t, hyield, -, hrotated⟩ :=
          yield_rotate hnodes hhead h.node_active
        have hperm : next.ready.Perm s.ready := by
          rw [ready, hrotated.nodes, hready, List.map_append]
          exact List.perm_append_singleton _ _
        exact ⟨next, _, hyield, h.reorder (hrotated.counted1 h.counted1)
          (hrotated.counted2 h.counted2) hperm hrotated.threads
          hrotated.threadIDS hrotated.mainEnqueued, hrotated.current⟩
      · refine ⟨_, _, yield_to_head hnodes hother, h.reorder h.counted1
          h.counted2 (List.Perm.refl _) rfl rfl rfl, ?_⟩
        change some node.thread = s.ready.head?
        rw [hready, List.head?_cons]

theorem Consistent.insert {exited : List Nat} {s next : Scheduler}
    (h : Consistent exited s) (hcounted1 : next.queuePriority1.Counted)
    (hcounted2 : next.queuePriority2.Counted)
    (hready : next.ready.Perm (s.threadIDS :: s.ready)) {stale : Int}
    (hthreads : next.threads =
      Function.update s.threads s.threadIDS (some ⟨.active, stale⟩))
    (hids : next.threadIDS = s.threadIDS + 1)
    (hmain : next.mainEnqueued = s.mainEnqueued) : Consistent exited next := by
  have hfresh : s.threadIDS ∉ s.ready := by
    intro hmem
    exact Nat.lt_irrefl _ ((h.ready_iff _).mp hmem).1
  refine
    { counted1 := hcounted1
      counted2 := hcounted2
      distinct := hready.nodup_iff.mpr (List.nodup_cons.mpr ⟨hfresh, h.distinct⟩)
      active := ?_
      completed := ?_
      ready_iff := ?_
      exited_lt := ?_
      mainEnqueued := hmain.trans h.mainEnqueued }
  · intro t ht
    rw [hthreads]
    rcases List.mem_cons.mp (hready.mem_iff.mp ht) with rfl | hold
    · exact ⟨stale, Function.update_self _ _ _⟩
    · have hne : t ≠ s.threadIDS := fun heq => hfresh (heq ▸ hold)
      rw [Function.update_of_ne hne]
      exact h.active t hold
  · intro t thread hthread habsent
    rw [hready.mem_iff, List.mem_cons, not_or] at habsent
    rw [hthreads, Function.update_of_ne habsent.1] at hthread
    exact h.completed t thread hthread habsent.2
  · intro t
    rw [hready.mem_iff, List.mem_cons, h.ready_iff t, hids]
    constructor
    · rintro (rfl | ⟨hlt, hnot⟩)
      · exact ⟨Nat.lt_succ_self _, fun hexited =>
          Nat.lt_irrefl _ (h.exited_lt _ hexited)⟩
      · exact ⟨Nat.lt_succ_of_lt hlt, hnot⟩
    · rintro ⟨hlt, hnot⟩
      rcases Nat.lt_succ_iff_lt_or_eq.mp hlt with hold | heq
      · exact Or.inr ⟨hold, hnot⟩
      · exact Or.inl heq
  · intro t ht
    rw [hids]
    exact Nat.lt_succ_of_lt (h.exited_lt t ht)

theorem enqueueThread_consistent {exited : List Nat} {s : Scheduler}
    (h : Consistent exited s) (stale : Int) :
    ∃ next, s.enqueueThread stale = some next ∧ Consistent exited next ∧
      next.current = s.current ∧ next.ready.Perm (s.threadIDS :: s.ready) ∧
      next.threadIDS = s.threadIDS + 1 ∧
      next.threads = Function.update s.threads s.threadIDS (some ⟨.active, stale⟩) := by
  have hperm : ((s.queuePriority1.waiting ++
      [(⟨s.threadIDS, 1⟩ : QueueNode)] ++ s.queuePriority2.waiting).map
        QueueNode.thread).Perm (s.threadIDS :: s.ready) := by
    rw [ready, nodes, List.append_assoc, List.singleton_append]
    exact List.perm_middle.map QueueNode.thread
  rw [← Queue.waiting_enqueue] at hperm
  refine ⟨{ s.setThread s.threadIDS (some ⟨.active, stale⟩) with
    threadIDS := s.threadIDS + 1
    queuePriority1 := s.queuePriority1.enqueue ⟨s.threadIDS, 1⟩ },
    ?_, ?_, rfl, hperm, rfl, rfl⟩
  · simp [enqueueThread, setThread, h.mainEnqueued]
  · exact h.insert (h.counted1.enqueue _) h.counted2 hperm rfl rfl rfl

theorem complete_eq {s : Scheduler} {node : QueueNode} {value : Int}
    (h : s.threads node.thread = some ⟨.active, value⟩) (valuePtr : Int) :
    s.complete node valuePtr = some (s.setThread node.thread
      (some ⟨.completed, if valuePtr ≠ 0 then valuePtr else value⟩)) := by
  simp only [complete, h, Option.bind_eq_bind, Option.bind_some]
  split
  · rfl
  · rfl

theorem removeSecond_eq {s : Scheduler} {node : QueueNode} {rest : List QueueNode}
    (h : s.queuePriority2.waiting = node :: rest) {value : Int}
    (hactive : s.threads node.thread = some ⟨.active, value⟩) (valuePtr : Int) :
    ∃ queue, s.removeSecond valuePtr = some { s.setThread node.thread (some
        ⟨.completed, if valuePtr ≠ 0 then valuePtr else value⟩) with
          queuePriority2 := queue } ∧
      queue.waiting = rest ∧ (s.queuePriority2.Counted → queue.Counted) := by
  have hpeek : s.queuePriority2.peek = some node := by
    rw [Queue.peek_eq_head, h, List.head?_cons]
  obtain ⟨queue, hdequeue, hwaiting, hcounted⟩ := Queue.dequeue_waiting h
  have hcomplete := complete_eq (s := { s with queuePriority2 := queue }) hactive valuePtr
  refine ⟨queue, ?_, hwaiting, hcounted⟩
  simp only [removeSecond, hpeek, hdequeue, Option.bind_eq_bind, Option.bind_some]
  rw [hcomplete]
  rfl

theorem removeCurrent_first {s : Scheduler} {node : QueueNode} {rest : List QueueNode}
    (h : s.queuePriority1.waiting = node :: rest) (hc : s.current = some node.thread)
    {value : Int} (hactive : s.threads node.thread = some ⟨.active, value⟩)
    (valuePtr : Int) :
    ∃ queue, s.removeCurrent valuePtr = some { s.setThread node.thread (some
        ⟨.completed, if valuePtr ≠ 0 then valuePtr else value⟩) with
          current := none, queuePriority1 := queue } ∧
      queue.waiting = rest ∧ (s.queuePriority1.Counted → queue.Counted) := by
  have hpeek : s.queuePriority1.peek = some node := by
    rw [Queue.peek_eq_head, h, List.head?_cons]
  obtain ⟨queue, hdequeue, hwaiting, hcounted⟩ := Queue.dequeue_waiting h
  have hcomplete := complete_eq (s := { s with queuePriority1 := queue }) hactive valuePtr
  refine ⟨queue, ?_, hwaiting, hcounted⟩
  simp only [removeCurrent, hc, hpeek, hdequeue, if_true, Option.bind_eq_bind,
    Option.bind_some]
  rw [hc] at hcomplete
  rw [hcomplete]
  rfl

theorem removeCurrent_second {s : Scheduler} {c : Nat} {node : QueueNode}
    {rest : List QueueNode} (hc : s.current = some c)
    (hfirst : ∀ first ∈ s.queuePriority1.waiting.head?, first.thread ≠ c)
    (h : s.queuePriority2.waiting = node :: rest) {value : Int}
    (hactive : s.threads node.thread = some ⟨.active, value⟩) (valuePtr : Int) :
    ∃ queue, s.removeCurrent valuePtr = some { s.setThread node.thread (some
        ⟨.completed, if valuePtr ≠ 0 then valuePtr else value⟩) with
          current := none, queuePriority2 := queue } ∧
      queue.waiting = rest ∧ (s.queuePriority2.Counted → queue.Counted) := by
  obtain ⟨queue, hremove, hwaiting, hcounted⟩ := removeSecond_eq h hactive valuePtr
  refine ⟨queue, ?_, hwaiting, hcounted⟩
  rw [← Queue.peek_eq_head] at hfirst
  cases hpeek : s.queuePriority1.peek with
  | none =>
      simp only [removeCurrent, hc, hpeek, hremove, Option.bind_eq_bind,
        Option.bind_some]
  | some first =>
      have hne : c ≠ first.thread := (hfirst first hpeek).symm
      simp only [removeCurrent, hc, hpeek, if_neg hne, hremove, Option.bind_eq_bind,
        Option.bind_some]

/-- The first branch of `my_pthread_exit` compares thread ids and the second
does not; both take the node at the head. -/
theorem removeCurrent_head {s : Scheduler} {node : QueueNode} {rest : List QueueNode}
    (h : s.nodes = node :: rest) (hc : s.current = some node.thread) {value : Int}
    (hactive : s.threads node.thread = some ⟨.active, value⟩) (valuePtr : Int) :
    ∃ next, s.removeCurrent valuePtr = some next ∧ next.nodes = rest ∧
      next.threads = Function.update s.threads node.thread
        (some ⟨.completed, if valuePtr ≠ 0 then valuePtr else value⟩) ∧
      next.current = none ∧ next.threadIDS = s.threadIDS ∧
      next.mainEnqueued = s.mainEnqueued ∧
      (s.queuePriority1.Counted → next.queuePriority1.Counted) ∧
      (s.queuePriority2.Counted → next.queuePriority2.Counted) := by
  cases hfirst : s.queuePriority1.waiting with
  | cons first firsts =>
      rw [nodes, hfirst] at h
      obtain ⟨rfl, hrest⟩ := List.cons.inj h
      obtain ⟨queue, hremove, hwaiting, hcounted⟩ :=
        removeCurrent_first hfirst hc hactive valuePtr
      refine ⟨_, hremove, ?_, rfl, rfl, rfl, rfl, hcounted, id⟩
      change queue.waiting ++ s.queuePriority2.waiting = rest
      rw [hwaiting]
      exact hrest
  | nil =>
      rw [nodes, hfirst, List.nil_append] at h
      obtain ⟨queue, hremove, hwaiting, hcounted⟩ :=
        removeCurrent_second hc (by simp [hfirst]) h hactive valuePtr
      refine ⟨_, hremove, ?_, rfl, rfl, rfl, rfl, id, hcounted⟩
      simp [nodes, setThread, hfirst, hwaiting]

theorem removeCurrent_eq {exited : List Nat} {s : Scheduler}
    (h : Settled exited s) {c : Nat} (hc : s.current = some c) (valuePtr : Int) :
    ∃ node next value, s.removeCurrent valuePtr = some next ∧
      node.thread = c ∧ s.nodes = node :: next.nodes ∧
      s.threads c = some ⟨.active, value⟩ ∧
      next.threads = Function.update s.threads c
        (some ⟨.completed, if valuePtr ≠ 0 then valuePtr else value⟩) ∧
      next.current = none ∧ next.threadIDS = s.threadIDS ∧
      next.mainEnqueued = s.mainEnqueued ∧
      next.queuePriority1.Counted ∧ next.queuePriority2.Counted := by
  have hhead := h.running
  rw [hc] at hhead
  obtain ⟨node, rest, hnodes, hnode⟩ : ∃ node rest, s.nodes = node :: rest ∧
      node.thread = c := by
    cases hnodes : s.nodes with
    | nil => simp [ready, hnodes] at hhead
    | cons node rest =>
        refine ⟨node, rest, rfl, ?_⟩
        rw [ready, hnodes, List.map_cons, List.head?_cons] at hhead
        exact (Option.some.inj hhead).symm
  subst hnode
  obtain ⟨value, hactive⟩ :=
    h.consistent.node_active node (hnodes ▸ List.mem_cons_self)
  obtain ⟨next, hremove, hrest, hthreads, hnone, hids, hmain, hcounted1, hcounted2⟩ :=
    removeCurrent_head hnodes hc hactive valuePtr
  exact ⟨node, next, value, hremove, rfl, hrest.symm ▸ hnodes, hactive, hthreads, hnone, hids,
    hmain, hcounted1 h.consistent.counted1, hcounted2 h.consistent.counted2⟩

theorem Consistent.remove {exited : List Nat} {s next : Scheduler} {c : Nat}
    (h : Consistent exited s) (hcounted1 : next.queuePriority1.Counted)
    (hcounted2 : next.queuePriority2.Counted)
    (hready : s.ready = c :: next.ready) {thread : Thread}
    (hcompleted : thread.state = .completed)
    (hthreads : next.threads = Function.update s.threads c (some thread))
    (hids : next.threadIDS = s.threadIDS)
    (hmain : next.mainEnqueued = s.mainEnqueued) :
    Consistent (c :: exited) next := by
  have hdistinct := List.nodup_cons.mp (hready ▸ h.distinct)
  have hne : ∀ t ∈ next.ready, t ≠ c := fun t ht heq => hdistinct.1 (heq ▸ ht)
  refine
    { counted1 := hcounted1
      counted2 := hcounted2
      distinct := hdistinct.2
      active := ?_
      completed := ?_
      ready_iff := ?_
      exited_lt := ?_
      mainEnqueued := hmain.trans h.mainEnqueued }
  · intro t ht
    rw [hthreads, Function.update_of_ne (hne t ht)]
    exact h.active t (hready ▸ List.mem_cons_of_mem c ht)
  · intro t other hother habsent
    rw [hthreads] at hother
    rcases Classical.em (t = c) with rfl | hdiffers
    · rw [Function.update_self] at hother
      rw [← Option.some.inj hother]
      exact hcompleted
    · rw [Function.update_of_ne hdiffers] at hother
      apply h.completed t other hother
      rw [hready, List.mem_cons, not_or]
      exact ⟨hdiffers, habsent⟩
  · intro t
    rw [hids, List.mem_cons, not_or]
    constructor
    · intro ht
      have hold := (h.ready_iff t).mp (hready ▸ List.mem_cons_of_mem c ht)
      exact ⟨hold.1, hne t ht, hold.2⟩
    · rintro ⟨hlt, hdiffers, hnot⟩
      have hmem := (h.ready_iff t).mpr ⟨hlt, hnot⟩
      rw [hready] at hmem
      exact (List.mem_cons.mp hmem).resolve_left hdiffers
  · intro t ht
    rw [hids]
    rcases List.mem_cons.mp ht with rfl | hold
    · exact ((h.ready_iff t).mp (hready ▸ List.mem_cons_self)).1
    · exact h.exited_lt t hold

/-- `my_pthread_exit` takes exactly the node of its caller, and the yield at
its end moves no node. -/
theorem exit_settled {exited : List Nat} {s : Scheduler} (h : Settled exited s)
    {c : Nat} (hc : s.current = some c) (valuePtr : Int) :
    ∃ next switch, s.myPthreadExit valuePtr = some (next, switch) ∧
      Settled (c :: exited) next ∧
      ∃ node, node.thread = c ∧ s.nodes = node :: next.nodes := by
  obtain ⟨node, removed, value, hremove, rfl, hnodes, -, hthreads,
    hnone, hids, hmain, hcounted1, hcounted2⟩ :=
    removeCurrent_eq h hc valuePtr
  have hready : s.ready = node.thread :: removed.ready := by
    rw [ready, hnodes, List.map_cons, ready]
  have hconsistent := h.consistent.remove hcounted1 hcounted2 hready
    rfl hthreads hids hmain
  have hexit : s.myPthreadExit valuePtr = removed.myPthreadYield := by
    rw [myPthreadExit, hremove]
    rfl
  rw [hexit]
  cases hrest : removed.nodes with
  | nil =>
      refine ⟨removed, _, yield_empty hrest, ⟨hconsistent, ?_⟩, node, rfl, ?_⟩
      · rw [hnone, ready, hrest]
        rfl
      · rw [hnodes, hrest]
  | cons first others =>
      have hother : removed.current ≠ some first.thread := by
        rw [hnone]
        nofun
      refine ⟨_, _, yield_to_head hrest hother, ⟨hconsistent.reorder hcounted1
        hcounted2 (List.Perm.refl _) rfl rfl rfl, ?_⟩, node, rfl, ?_⟩
      · change some first.thread = removed.ready.head?
        rw [ready, hrest]
        rfl
      · rw [hnodes, hrest]
        exact congrArg (node :: ·) hrest.symm

theorem join_settled {exited : List Nat} {s : Scheduler} (h : Settled exited s)
    {t : Nat} {thread : Thread} (hthread : s.threads t = some thread) :
    ∃ next switch value, s.myPthreadJoin t = some (next, switch, value) ∧
      Settled exited next := by
  rcases Classical.em (thread.state = .completed) with hcompleted | hwaiting
  · refine ⟨s.setThread t none, .stay, some thread.returnValue, ?_, ?_, h.running⟩
    · simp [myPthreadJoin, hthread, hcompleted]
    · have hne : ∀ u ∈ s.ready, u ≠ t := by
        rintro u hu rfl
        obtain ⟨value, hactive⟩ := h.consistent.active u hu
        rw [hthread] at hactive
        rw [Option.some.inj hactive] at hcompleted
        cases hcompleted
      refine { h.consistent with active := ?_, completed := ?_ }
      · intro u hu
        obtain ⟨value, hactive⟩ := h.consistent.active u hu
        exact ⟨value, (Function.update_of_ne (hne u hu) _ _).trans hactive⟩
      · intro u other hother habsent
        change Function.update s.threads t none u = some other at hother
        rcases Classical.em (u = t) with rfl | hdiffers
        · rw [Function.update_self] at hother
          cases hother
        · rw [Function.update_of_ne hdiffers] at hother
          exact h.consistent.completed u other hother habsent
  · have hmem : ∀ c, s.current = some c → c ∈ s.ready := by
      intro c hc
      rw [h.running] at hc
      exact List.mem_of_head? hc
    obtain ⟨next, switch, hyield, hsettled⟩ := yield_settled h.consistent hmem
    refine ⟨next, switch, none, ?_, hsettled⟩
    simp [myPthreadJoin, hthread, hwaiting, hyield]

def Op.Allowed (s : Scheduler) : Op → Prop
  | .join thread => ∃ struct, s.threads thread = some struct
  | _ => True

theorem Settled.current_mem {exited : List Nat} {s : Scheduler}
    (h : Settled exited s) (c : Nat) (hc : s.current = some c) : c ∈ s.ready := by
  rw [h.running] at hc
  exact List.mem_of_head? hc

/-- The step lemma: a call of the running thread returns, and keeps the state
between two calls. -/
theorem step_settled {exited : List Nat} {s : Scheduler} (h : Settled exited s)
    {c : Nat} (hc : s.current = some c) {op : Op} (hallowed : op.Allowed s) :
    ∃ next, s.step op = some next ∧ Settled (op.exits c exited) next := by
  cases op with
  | create stale =>
      obtain ⟨added, henqueue, hconsistent, hcurrent, hready, -⟩ :=
        enqueueThread_consistent h.consistent stale
      have hmem : ∀ c, added.current = some c → c ∈ added.ready := by
        intro c hc
        rw [hcurrent] at hc
        exact hready.mem_iff.mpr (List.mem_cons_of_mem _ (h.current_mem c hc))
      obtain ⟨next, switch, hyield, hsettled⟩ := yield_settled hconsistent hmem
      refine ⟨next, ?_, hsettled⟩
      simp [step, myPthreadCreate, henqueue, hyield]
  | yield =>
      obtain ⟨next, switch, hyield, hsettled⟩ :=
        yield_settled h.consistent h.current_mem
      refine ⟨next, ?_, hsettled⟩
      simp [step, hyield]
  | exit valuePtr =>
      obtain ⟨next, switch, hexit, hsettled, -⟩ := exit_settled h hc valuePtr
      refine ⟨next, ?_, hsettled⟩
      simp [step, hexit]
  | join thread =>
      obtain ⟨struct, hstruct⟩ := hallowed
      obtain ⟨next, switch, value, hjoin, hsettled⟩ := join_settled h hstruct
      refine ⟨next, ?_, hsettled⟩
      simp [step, hjoin]

theorem initialize_enqueueThread (garbage stale : Int) :
    ∃ created, (initializeScheduler garbage).enqueueThread stale = some created ∧
      Consistent [] created ∧ created.current = some 0 ∧ 0 ∈ created.ready ∧
      created.threadIDS = 2 ∧ created.threads = Function.update
        (initializeScheduler garbage).threads 1 (some ⟨.active, stale⟩) := by
  let created : Scheduler :=
    { threadIDS := 2
      mainEnqueued := true
      current := some 0
      queuePriority1 := (Queue.empty.enqueue ⟨1, 1⟩).enqueue ⟨0, 1⟩
      queuePriority2 := .empty
      threads := Function.update (Function.update (fun _ => none) 0
        (some ⟨.active, garbage⟩)) 1 (some ⟨.active, stale⟩) }
  have hready : created.ready = [1, 0] := rfl
  have hconsistent : Consistent [] created := by
    refine
      { counted1 := rfl
        counted2 := rfl
        distinct := by simp [hready]
        active := ?_
        completed := ?_
        ready_iff := ?_
        exited_lt := nofun
        mainEnqueued := rfl }
    · intro t ht
      rw [hready] at ht
      rcases List.mem_cons.mp ht with rfl | ht
      · exact ⟨stale, rfl⟩
      · obtain rfl := List.mem_singleton.mp ht
        exact ⟨garbage, rfl⟩
    · intro t thread hthread habsent
      rw [hready, List.mem_cons, List.mem_singleton, not_or] at habsent
      simp [created, Function.update_of_ne, habsent] at hthread
    · intro t
      rw [hready]
      change t ∈ [1, 0] ↔ t < 2 ∧ t ∉ []
      simp only [List.mem_cons, List.not_mem_nil, or_false, not_false_eq_true,
        and_true]
      omega
  exact ⟨created, rfl, hconsistent, rfl, by simp [hready], rfl, rfl⟩

theorem first_create_settled (garbage stale : Int) :
    ∃ next, (initializeScheduler garbage).step (.create stale) = some next ∧
      Settled [] next := by
  obtain ⟨created, henqueue, hconsistent, hcurrent, hmain, -⟩ :=
    initialize_enqueueThread garbage stale
  have hmem : ∀ c, created.current = some c → c ∈ created.ready := by
    intro c hc
    obtain rfl := Option.some.inj (hcurrent.symm.trans hc)
    exact hmain
  obtain ⟨next, switch, hyield, hsettled⟩ := yield_settled hconsistent hmem
  refine ⟨next, ?_, hsettled⟩
  simp [step, myPthreadCreate, henqueue, hyield]

theorem Op.allowed_of_step {s next : Scheduler} {op : Op}
    (h : s.step op = some next) : op.Allowed s := by
  cases op with
  | create stale => trivial
  | yield => trivial
  | exit valuePtr => trivial
  | join thread =>
      cases hthread : s.threads thread with
      | none => simp [step, myPthreadJoin, hthread] at h
      | some struct => exact ⟨struct, hthread⟩

/-- The run lemma. -/
theorem Reachable.settled {exited : List Nat} {s : Scheduler}
    (h : Reachable exited s) : Settled exited s := by
  induction h with
  | create garbage stale hstep =>
      obtain ⟨next, hnext, hsettled⟩ := first_create_settled garbage stale
      obtain rfl := Option.some.inj (hstep.symm.trans hnext)
      exact hsettled
  | step op hreach hc hstep ih =>
      obtain ⟨next, hnext, hsettled⟩ :=
        step_settled ih hc (Op.allowed_of_step hstep)
      obtain rfl := Option.some.inj (hstep.symm.trans hnext)
      exact hsettled

/-- No thread is lost, duplicated or resurrected: the two queues hold each
unexited thread once, the running thread is the oldest of the first queue that
is not empty, and an exit removes the node of its caller. -/
theorem reachable_ready_queues {exited : List Nat} {s : Scheduler}
    (h : Reachable exited s) :
    (∀ t, t < s.threadIDS → t ∉ exited → s.ready.count t = 1) ∧
    (∀ t ∈ s.ready, t < s.threadIDS ∧ t ∉ exited ∧
      ∃ thread, s.threads t = some thread ∧ thread.state ≠ .completed) ∧
    s.queuePriority1.size = s.queuePriority1.tail.length ∧
    s.queuePriority2.size = s.queuePriority2.tail.length ∧
    (∀ c, s.current = some c →
      (s.queuePriority1.peek.map QueueNode.thread = some c ∨
        s.queuePriority1.tail = [] ∧
          s.queuePriority2.peek.map QueueNode.thread = some c)) ∧
    (∀ c valuePtr, s.current = some c → ∃ next switch node,
      s.myPthreadExit valuePtr = some (next, switch) ∧ node.thread = c ∧
        s.nodes = node :: next.nodes) ∧
    ∀ op, s.current ≠ none → op.Allowed s → ∃ next, s.step op = some next := by
  have hsettled := h.settled
  have hconsistent := hsettled.consistent
  refine ⟨?_, ?_, hconsistent.counted1, hconsistent.counted2, ?_, ?_, ?_⟩
  · intro t hlt hnot
    exact List.count_eq_one_of_mem hconsistent.distinct
      ((hconsistent.ready_iff t).mpr ⟨hlt, hnot⟩)
  · intro t ht
    obtain ⟨value, hactive⟩ := hconsistent.active t ht
    obtain ⟨hlt, hnot⟩ := (hconsistent.ready_iff t).mp ht
    exact ⟨hlt, hnot, _, hactive, nofun⟩
  · intro c hc
    have hhead := hsettled.running
    rw [hc, ready, nodes] at hhead
    cases hfirst : s.queuePriority1.waiting with
    | cons first firsts =>
        rw [hfirst] at hhead
        rw [Queue.peek_eq_head, hfirst]
        exact Or.inl hhead.symm
    | nil =>
        rw [hfirst, List.nil_append, List.head?_map] at hhead
        rw [Queue.peek_eq_head s.queuePriority2]
        exact Or.inr ⟨List.reverse_eq_nil_iff.mp hfirst, hhead.symm⟩
  · intro c valuePtr hc
    obtain ⟨next, switch, hexit, -, node, hnode, hnodes⟩ :=
      exit_settled hsettled hc valuePtr
    exact ⟨next, switch, node, hexit, hnode, hnodes⟩
  · intro op hrunning hallowed
    obtain ⟨c, hc⟩ := Option.ne_none_iff_exists'.mp hrunning
    obtain ⟨next, hstep, -⟩ := step_settled hsettled hc hallowed
    exact ⟨next, hstep⟩

theorem reachable_ready_queues_first_create :
    ∃ s, (initializeScheduler 5).step (.create 7) = some s ∧
      s.current = some 1 ∧ s.ready.count 0 = 1 ∧ s.ready.count 1 = 1 := by
  refine ⟨_, rfl, rfl, ?_⟩
  have hready := (reachable_ready_queues (.create 5 7 rfl)).1
  exact ⟨hready 0 (by decide) (by simp), hready 1 (by decide) (by simp)⟩

end RutgersOS.Assignment2.Scheduler
