import RutgersOS.Assignment2.LinkedScheduler

namespace RutgersOS.Assignment2.LinkedScheduler

open RutgersOS.Memory RutgersOS.Pthread

variable {Ptr : Type}

structure Linked (s : LinkedScheduler Ptr) (model : Scheduler)
    (loose : List (Ptr × QueueNode)) : Prop where
  threadIDS : s.threadIDS = model.threadIDS
  mainEnqueued : s.mainEnqueued = model.mainEnqueued
  current : s.current = model.current
  threads : s.threads = model.threads
  share : LinkedQueue.Share s.nodes s.queuePriority1 s.queuePriority2
    model.queuePriority1 model.queuePriority2 loose

theorem rel_bind {α β γ δ : Type} {r : α → β → Prop} {q : γ → δ → Prop} {x : Option α}
    {y : Option β} {f : α → Option γ} {g : β → Option δ} (h : Option.Rel r x y)
    (hnext : ∀ a b, r a b → y = some b → Option.Rel q (f a) (g b)) :
    Option.Rel q (x.bind f) (y.bind g) := by
  cases h with
  | none => exact .none
  | some hr => exact hnext _ _ hr rfl

theorem rel_eq {α : Type} {x y : Option α} (h : x = y) : Option.Rel Eq x y := by
  subst h
  cases x with
  | none => exact .none
  | some a => exact .some rfl

theorem dequeue_of_peek {queue : Queue QueueNode} {node : QueueNode}
    (h : queue.peek = some node) :
    ∃ after, queue.dequeue = some (node, after) ∧ node ∈ queue.waiting := by
  have hdequeue : queue.dequeue = some (node, ⟨queue.tail.dropLast, queue.size - 1⟩) := by
    rw [Queue.dequeue, ← Queue.peek, h]
    rfl
  exact ⟨_, hdequeue, List.mem_reverse.mpr (List.mem_of_getLast? h)⟩

namespace Linked

variable {s : LinkedScheduler Ptr} {model : Scheduler} {loose : List (Ptr × QueueNode)}
  {p : Ptr} {node : QueueNode}

theorem seen {top : Option Ptr} {bottom : Option QueueNode}
    (h : Option.Rel (fun p node => ∃ next, s.nodes.cell p = some (node, next)) top bottom) :
    Option.Rel (fun p node => s.threadOf p = some node.thread) top bottom := by
  cases h with
  | none => exact .none
  | some hnode =>
      obtain ⟨next, hcell⟩ := hnode
      exact .some (congrArg (Option.map _) hcell)

theorem peek1 (h : Linked s model loose) : ∃ top, s.peek1 = some top ∧
    Option.Rel (fun p node => s.threadOf p = some node.thread) top
      model.queuePriority1.peek := by
  obtain ⟨top, hpeek, hrel⟩ := h.share.peek
  exact ⟨top, hpeek, seen hrel⟩

theorem peek2 (h : Linked s model loose) : ∃ top, s.peek2 = some top ∧
    Option.Rel (fun p node => s.threadOf p = some node.thread) top
      model.queuePriority2.peek := by
  obtain ⟨top, hpeek, hrel⟩ := h.share.swap.peek
  exact ⟨top, hpeek, seen hrel⟩

theorem setThread (h : Linked s model loose) (t : Nat) (thread : Option Thread) :
    Linked (s.setThread t thread) (model.setThread t thread) loose :=
  { h with
    threads := by
      rw [LinkedScheduler.setThread, h.threads]
      rfl }

theorem setCurrent (h : Linked s model loose) (current : Option Nat) :
    Linked { s with current := current } { model with current := current } loose :=
  { h with current := rfl }

theorem threadOf (h : Linked s model ((p, node) :: loose)) :
    s.threadOf p = some node.thread := by
  obtain ⟨next, hcell⟩ := h.share.value
  exact congrArg (Option.map _) hcell

theorem runNext (h : Linked s model loose) (temp : Nat)
    (hp : s.threadOf p = some node.thread) :
    Option.Rel (fun a b => Linked a.1 b.1 loose ∧ a.2 = b.2) (s.runNext temp p)
      (model.runNext temp node) := by
  rw [LinkedScheduler.runNext, hp, Scheduler.runNext, ← h.threads]
  cases hthread : s.threads node.thread with
  | none => simp [hthread]
  | some thread =>
      simp only [Option.bind_eq_bind, Option.bind_some, hthread]
      exact .some ⟨(h.setThread _ _).setCurrent _, rfl⟩

theorem yield_head (h : Linked s model loose) {t : Nat}
    {rotate : Nat → Option (LinkedScheduler Ptr × Switch)}
    {rotateModel : Nat → Option (Scheduler × Switch)}
    (hrotate : ∀ temp, Option.Rel (fun a b => Linked a.1 b.1 loose ∧ a.2 = b.2)
      (rotate temp) (rotateModel temp)) :
    Option.Rel (fun a b => Linked a.1 b.1 loose ∧ a.2 = b.2)
      (match s.current with
        | none => some ({ s with current := some t }, .resume t)
        | some temp =>
            if temp ≠ t then some ({ s with current := some t }, .swap temp t)
            else rotate temp)
      (match model.current with
        | none => some ({ model with current := some t }, .resume t)
        | some temp =>
            if temp ≠ t then some ({ model with current := some t }, .swap temp t)
            else rotateModel temp) := by
  rw [h.current]
  cases hcurrent : model.current with
  | none => exact .some ⟨h.setCurrent _, rfl⟩
  | some temp =>
      rcases Classical.em (temp = t) with rfl | hne
      · simp only [ne_eq, not_true_eq_false, if_false]
        exact hrotate temp
      · simp only [ne_eq, hne, not_false_eq_true, if_true]
        exact .some ⟨h.setCurrent _, rfl⟩

variable [DecidableEq Ptr]

theorem dequeue1 (h : Linked s model loose) {queue : Queue QueueNode}
    (hmodel : model.queuePriority1.dequeue = some (node, queue)) :
    ∃ p after, s.dequeue1 = some (p, after) ∧
      Linked after { model with queuePriority1 := queue } ((p, node) :: loose) := by
  obtain ⟨p, nodes, after, hdequeue, hshare⟩ := h.share.dequeue hmodel
  refine ⟨p, { s with nodes := nodes, queuePriority1 := after }, ?_, { h with share := hshare }⟩
  simp [LinkedScheduler.dequeue1, hdequeue]

theorem dequeue2 (h : Linked s model loose) {queue : Queue QueueNode}
    (hmodel : model.queuePriority2.dequeue = some (node, queue)) :
    ∃ p after, s.dequeue2 = some (p, after) ∧
      Linked after { model with queuePriority2 := queue } ((p, node) :: loose) := by
  obtain ⟨p, nodes, after, hdequeue, hshare⟩ := h.share.swap.dequeue hmodel
  refine ⟨p, { s with nodes := nodes, queuePriority2 := after }, ?_,
    { h with share := hshare.swap }⟩
  simp [LinkedScheduler.dequeue2, hdequeue]

theorem enqueue1 (h : Linked s model ((p, node) :: loose)) :
    ∃ after, s.enqueue1 p = some after ∧
      Linked after { model with queuePriority1 := model.queuePriority1.enqueue node } loose := by
  obtain ⟨nodes, queue, henqueue, hshare⟩ := h.share.enqueue
  refine ⟨{ s with nodes := nodes, queuePriority1 := queue }, ?_, { h with share := hshare }⟩
  simp [LinkedScheduler.enqueue1, henqueue]

theorem enqueue1_frame {after : LinkedScheduler Ptr} {q : Ptr} (h : s.enqueue1 p = some after)
    (hne : q ≠ p) : after.nodes.cell q = s.nodes.cell q := by
  obtain ⟨⟨nodes, queue⟩, henqueue, hafter⟩ := Option.bind_eq_some_iff.mp h
  obtain rfl := Option.some.inj hafter
  exact LinkedQueue.enqueue_frame henqueue hne

theorem enqueue2 (h : Linked s model ((p, node) :: loose)) :
    ∃ after, s.enqueue2 p = some after ∧
      Linked after { model with queuePriority2 := model.queuePriority2.enqueue node } loose := by
  obtain ⟨nodes, queue, henqueue, hshare⟩ := h.share.swap.enqueue
  refine ⟨{ s with nodes := nodes, queuePriority2 := queue }, ?_,
    { h with share := hshare.swap }⟩
  simp [LinkedScheduler.enqueue2, henqueue]

theorem setPriority (h : Linked s model ((p, node) :: loose)) (priority : Int) :
    ∃ after, s.setPriority p priority = some after ∧
      Linked after model ((p, { node with priority := priority }) :: loose) := by
  obtain ⟨next, hcell⟩ := h.share.value
  obtain ⟨nodes, hwrite, hshare⟩ := h.share.write { node with priority := priority }
  refine ⟨{ s with nodes := nodes }, ?_, { h with share := hshare }⟩
  simp [LinkedScheduler.setPriority, hcell, hwrite]

theorem allocate (h : Linked s model loose) (fresh : Fresh Ptr)
    (hfree : s.nodes.cell fresh.address = none) (node : QueueNode) :
    Linked (s.allocate fresh node) model ((fresh.address, node) :: loose) :=
  { h with share := h.share.allocate hfree node fresh.next }

theorem requeue (h : Linked s model ((p, node) :: loose)) {value : Int}
    (hactive : model.threads node.thread = some ⟨.active, value⟩) :
    ∃ after modelAfter, s.requeue p = some after ∧
      model.requeue node = some modelAfter ∧ Linked after modelAfter loose := by
  obtain ⟨written, hwrite, hwritten⟩ :=
    (h.setThread node.thread (some ⟨.active, value⟩)).setPriority 2
  obtain ⟨after, henqueue, hafter⟩ := hwritten.enqueue2
  refine ⟨after, _, ?_, ?_, hafter⟩
  · simp [LinkedScheduler.requeue, h.threadOf, h.threads, hactive, hwrite, henqueue]
  · simp [Scheduler.requeue, hactive]

/-- Where the queued threads are active the two yields go the same way. -/
theorem yield (h : Linked s model loose)
    (hactive : ∀ node ∈ model.nodes, ∃ value,
      model.threads node.thread = some ⟨.active, value⟩) :
    Option.Rel (fun a b => Linked a.1 b.1 loose ∧ a.2 = b.2) s.myPthreadYield
      model.myPthreadYield := by
  obtain ⟨top1, hpeek1, hrel1⟩ := h.peek1
  generalize hbottom1 : model.queuePriority1.peek = bottom1 at hrel1
  cases hrel1 with
  | @some p node hp =>
      simp only [myPthreadYield, Scheduler.myPthreadYield, hpeek1, hbottom1, hp,
        Option.bind_eq_bind, Option.bind_some]
      apply h.yield_head
      intro temp
      obtain ⟨queue, hdequeue, hmem⟩ := dequeue_of_peek hbottom1
      obtain ⟨value, hvalue⟩ := hactive node (List.mem_append_left _ hmem)
      obtain ⟨q, taken, htake, htaken⟩ := h.dequeue1 hdequeue
      obtain ⟨after, modelAfter, hrequeue, hmodel, hafter⟩ := htaken.requeue hvalue
      obtain ⟨top, htop, hrel⟩ := hafter.peek1
      simp only [htake, hdequeue, hrequeue, hmodel, htop, Option.bind_some]
      generalize modelAfter.queuePriority1.peek = bottom at hrel
      cases hrel with
      | some hnext => exact hafter.runNext temp hnext
      | none =>
          obtain ⟨top2, htop2, hrel2⟩ := hafter.peek2
          simp only [htop2, Option.bind_some, Option.none_or]
          generalize modelAfter.queuePriority2.peek = bottom2 at hrel2
          cases hrel2 with
          | some hnext => exact hafter.runNext temp hnext
          | none => exact .none
  | none =>
      obtain ⟨top2, hpeek2, hrel2⟩ := h.peek2
      generalize hbottom2 : model.queuePriority2.peek = bottom2 at hrel2
      cases hrel2 with
      | none =>
          simp only [myPthreadYield, Scheduler.myPthreadYield, hpeek1, hbottom1, hpeek2,
            hbottom2, Option.bind_eq_bind, Option.bind_some]
          exact .some ⟨h, rfl⟩
      | @some p node hp =>
          simp only [myPthreadYield, Scheduler.myPthreadYield, hpeek1, hbottom1, hpeek2,
            hbottom2, hp, Option.bind_eq_bind, Option.bind_some]
          apply h.yield_head
          intro temp
          obtain ⟨queue, hdequeue, hmem⟩ := dequeue_of_peek hbottom2
          obtain ⟨value, hvalue⟩ := hactive node (List.mem_append_right _ hmem)
          obtain ⟨q, taken, htake, htaken⟩ := h.dequeue2 hdequeue
          obtain ⟨after, modelAfter, hrequeue, hmodel, hafter⟩ := htaken.requeue hvalue
          obtain ⟨top, htop, hrel⟩ := hafter.peek2
          simp only [htake, hdequeue, hrequeue, hmodel, htop, Option.bind_some]
          generalize modelAfter.queuePriority2.peek = bottom at hrel
          cases hrel with
          | some hnext => exact hafter.runNext temp hnext
          | none => exact .none

theorem enqueueMain (h : Linked s model loose) (mainNode : Fresh Ptr)
    (hfree : s.mainEnqueued = false → s.nodes.cell mainNode.address = none) :
    Option.Rel (Linked · · loose)
      (if s.mainEnqueued then some s
      else s.current.bind fun current =>
        ({ s with mainEnqueued := true }.allocate mainNode ⟨current, 1⟩).enqueue1
          mainNode.address)
      (if model.mainEnqueued then some model
      else model.current.bind fun current =>
        some { model with
          mainEnqueued := true
          queuePriority1 := model.queuePriority1.enqueue ⟨current, 1⟩ }) := by
  rcases hflag : s.mainEnqueued with _ | _
  · have hmain : Linked { s with mainEnqueued := true }
        { model with mainEnqueued := true } loose := { h with mainEnqueued := rfl }
    rw [← h.mainEnqueued, hflag]
    refine rel_bind (rel_eq h.current) ?_
    rintro current _ rfl -
    obtain ⟨after, henqueue, hafter⟩ :=
      (hmain.allocate mainNode (hfree hflag) ⟨current, 1⟩).enqueue1
    rw [henqueue]
    exact .some hafter
  · rw [← h.mainEnqueued, hflag]
    exact .some h

theorem enqueueThread (h : Linked s model loose) (stale : Int) (newNode mainNode : Fresh Ptr)
    (hnew : s.nodes.cell newNode.address = none)
    (hmain : s.mainEnqueued = false → s.nodes.cell mainNode.address = none ∧
      mainNode.address ≠ newNode.address) :
    Option.Rel (Linked · · loose) (s.enqueueThread stale newNode mainNode)
      (model.enqueueThread stale) := by
  have hthread := h.setThread s.threadIDS (some ⟨.active, stale⟩)
  have hcounted : Linked { s.setThread s.threadIDS (some ⟨.active, stale⟩) with
      threadIDS := s.threadIDS + 1 } { model.setThread s.threadIDS (some ⟨.active, stale⟩) with
      threadIDS := s.threadIDS + 1 } loose := { hthread with threadIDS := rfl }
  obtain ⟨first, hfirst, hlinked⟩ :=
    (hcounted.allocate newNode hnew ⟨s.threadIDS, 1⟩).enqueue1
  have hframe (hne : mainNode.address ≠ newNode.address) :
      first.nodes.cell mainNode.address = s.nodes.cell mainNode.address :=
    (enqueue1_frame hfirst hne).trans (Function.update_of_ne hne _ _)
  rw [LinkedScheduler.enqueueThread, Scheduler.enqueueThread, ← h.threadIDS]
  simp only [hfirst, Option.bind_eq_bind, Option.bind_some]
  refine hlinked.enqueueMain mainNode fun hflag => ?_
  obtain ⟨hfree, hne⟩ := hmain ((h.mainEnqueued.trans hlinked.mainEnqueued.symm).trans hflag)
  exact (hframe hne).trans hfree

theorem complete (h : Linked s model ((p, node) :: loose)) (valuePtr : Int) :
    Option.Rel (Linked · · loose) (s.complete p valuePtr) (model.complete node valuePtr) := by
  rw [LinkedScheduler.complete, h.threadOf, Scheduler.complete, ← h.threads]
  cases hthread : s.threads node.thread with
  | none => simp [hthread]
  | some thread =>
      obtain ⟨nodes, hrelease, hshare⟩ := h.share.release
      simp only [hthread, LinkedScheduler.setThread, hrelease, Option.bind_eq_bind,
        Option.bind_some]
      exact .some { h.setThread node.thread _ with share := hshare }

theorem removeSecond (h : Linked s model loose) {top : Option Ptr}
    (hpeek : Option.Rel (fun p node => s.threadOf p = some node.thread) top
      model.queuePriority2.peek) (valuePtr : Int) :
    Option.Rel (Linked · · loose) (s.removeSecond top valuePtr)
      (model.removeSecond valuePtr) := by
  generalize hbottom : model.queuePriority2.peek = bottom at hpeek
  cases hpeek with
  | none =>
      rw [Scheduler.removeSecond, hbottom]
      exact .some h
  | some hp =>
      obtain ⟨queue, hdequeue, -⟩ := dequeue_of_peek hbottom
      obtain ⟨q, taken, htake, htaken⟩ := h.dequeue2 hdequeue
      simp only [LinkedScheduler.removeSecond, Scheduler.removeSecond, hbottom, htake, hdequeue,
        Option.bind_eq_bind, Option.bind_some]
      exact htaken.complete valuePtr

theorem removeCurrent (h : Linked s model loose) (valuePtr : Int) :
    Option.Rel (Linked · · loose) (s.removeCurrent valuePtr)
      (model.removeCurrent valuePtr) := by
  obtain ⟨top1, hpeek1, hrel1⟩ := h.peek1
  obtain ⟨top2, hpeek2, hrel2⟩ := h.peek2
  refine rel_bind (rel_eq h.current) ?_
  rintro current _ rfl -
  simp only [hpeek1, hpeek2, Option.bind_eq_bind, Option.bind_some]
  generalize hbottom : model.queuePriority1.peek = bottom at hrel1
  cases hrel1 with
  | none =>
      exact rel_bind (h.removeSecond hrel2 valuePtr) fun _ _ hafter _ =>
        .some (hafter.setCurrent none)
  | @some p node hp =>
      simp only [hp, Option.bind_some]
      rcases Classical.em (current = node.thread) with rfl | hne
      · obtain ⟨queue, hdequeue, -⟩ := dequeue_of_peek hbottom
        obtain ⟨q, taken, htake, htaken⟩ := h.dequeue1 hdequeue
        simp only [htake, hdequeue, Option.bind_some, if_true]
        exact rel_bind (htaken.complete valuePtr) fun _ _ hafter _ =>
          .some (hafter.setCurrent none)
      · simp only [hne, if_false]
        exact rel_bind (h.removeSecond hrel2 valuePtr) fun _ _ hafter _ =>
          .some (hafter.setCurrent none)

end Linked

def Op.erase : Op Ptr → Scheduler.Op
  | .create stale _ _ => .create stale
  | .yield => .yield
  | .exit valuePtr => .exit valuePtr
  | .join thread => .join thread

def Op.Admitted (s : LinkedScheduler Ptr) : Op Ptr → Prop
  | .create _ newNode mainNode =>
      s.nodes.cell newNode.address = none ∧
        (s.mainEnqueued = false → s.nodes.cell mainNode.address = none ∧
          mainNode.address ≠ newNode.address)
  | _ => True

variable [DecidableEq Ptr]

/-- The schedulers after the first `my_pthread_create` and any further calls of
the running threads. -/
inductive Reachable : List Nat → LinkedScheduler Ptr → Prop
  | create {s : LinkedScheduler Ptr} (garbage stale : Int) (newNode mainNode : Fresh Ptr) :
      Op.Admitted (initializeScheduler garbage) (.create stale newNode mainNode) →
        (initializeScheduler garbage).step (.create stale newNode mainNode) = some s →
          Reachable [] s
  | step {exited : List Nat} {s next : LinkedScheduler Ptr} {current : Nat} (op : Op Ptr) :
      Reachable exited s → op.Admitted s → s.current = some current →
        s.step op = some next → Reachable (op.erase.exits current exited) next

namespace Linked

variable {s : LinkedScheduler Ptr} {model : Scheduler} {loose : List (Ptr × QueueNode)}
  {exited : List Nat}

omit [DecidableEq Ptr] in
theorem initializeScheduler (garbage : Int) :
    Linked (initializeScheduler garbage : LinkedScheduler Ptr)
      (Scheduler.initializeScheduler garbage) [] where
  threadIDS := rfl
  mainEnqueued := rfl
  current := rfl
  threads := rfl
  share := ⟨[], [], ⟨.nil, rfl, rfl⟩, ⟨.nil, rfl, rfl⟩,
    { distinct := List.nodup_nil
      live := fun p => by simp [LinkedScheduler.initializeScheduler]
      value := fun p x hmem => by cases hmem
      count := rfl }⟩

omit [DecidableEq Ptr] in
theorem map_fst {β : Type} {left : Option (LinkedScheduler Ptr × β)}
    {right : Option (Scheduler × β)}
    (h : Option.Rel (fun a b => Linked a.1 b.1 loose ∧ a.2 = b.2) left right) :
    Option.Rel (Linked · · loose) (left.map Prod.fst) (right.map Prod.fst) := by
  cases h with
  | none => exact .none
  | some hr => exact .some hr.1

theorem create (h : Linked s model loose) (stale : Int) {newNode mainNode : Fresh Ptr}
    (hadmitted : Op.Admitted s (.create stale newNode mainNode))
    (hactive : ∀ added, model.enqueueThread stale = some added → ∀ node ∈ added.nodes,
      ∃ value, added.threads node.thread = some ⟨.active, value⟩) :
    Option.Rel (Linked · · loose) (s.step (.create stale newNode mainNode))
      (model.step (.create stale)) := by
  refine map_fst (rel_bind (h.enqueueThread stale newNode mainNode hadmitted.1 hadmitted.2) ?_)
  intro added modelAdded hadded hmodel
  exact hadded.yield (hactive modelAdded hmodel)

theorem join (h : Linked s model loose) (hconsistent : model.Consistent exited) (thread : Nat) :
    Option.Rel (fun a b => Linked a.1 b.1 loose ∧ a.2 = b.2) (s.myPthreadJoin thread)
      (model.myPthreadJoin thread) := by
  refine rel_bind (rel_eq (congrFun h.threads thread)) ?_
  rintro struct _ rfl -
  rcases Classical.em (struct.state = .completed) with hcompleted | hwaiting
  · simp only [hcompleted, ne_eq, not_true_eq_false, if_false]
    exact .some ⟨h.setThread thread none, rfl⟩
  · simp only [hwaiting, ne_eq, not_false_eq_true, if_true]
    refine rel_bind (h.yield hconsistent.node_active) fun a b hafter _ => ?_
    exact .some ⟨hafter.1, congrArg (·, none) hafter.2⟩

omit [DecidableEq Ptr] in
theorem removed_active {removed : Scheduler} {valuePtr : Int}
    (hsettled : model.Settled exited) (hremove : model.removeCurrent valuePtr = some removed) :
    ∀ node ∈ removed.nodes, ∃ value, removed.threads node.thread = some ⟨.active, value⟩ := by
  cases hcurrent : model.current with
  | none =>
      rw [Scheduler.removeCurrent, hcurrent] at hremove
      cases hremove
  | some c =>
      obtain ⟨node, next, value, hnext, rfl, hnodes, -, hthreads, -, hids, hmain, hcounted1,
        hcounted2⟩ := Scheduler.removeCurrent_eq hsettled hcurrent valuePtr
      obtain rfl := Option.some.inj (hnext.symm.trans hremove)
      have hready : model.ready = node.thread :: next.ready := by
        rw [Scheduler.ready, hnodes, List.map_cons, Scheduler.ready]
      exact (hsettled.consistent.remove hcounted1 hcounted2 hready rfl hthreads hids
        hmain).node_active

theorem step (h : Linked s model loose) (hsettled : model.Settled exited) {op : Op Ptr}
    (hadmitted : op.Admitted s) :
    Option.Rel (Linked · · loose) (s.step op) (model.step op.erase) := by
  cases op with
  | create stale newNode mainNode =>
      obtain ⟨next, henqueue, hconsistent, -⟩ :=
        Scheduler.enqueueThread_consistent hsettled.consistent stale
      refine h.create stale hadmitted fun added hadded => ?_
      obtain rfl := Option.some.inj (henqueue.symm.trans hadded)
      exact hconsistent.node_active
  | yield => exact map_fst (h.yield hsettled.consistent.node_active)
  | exit valuePtr =>
      refine map_fst (rel_bind (h.removeCurrent valuePtr) ?_)
      intro removed modelRemoved hremoved hmodel
      exact hremoved.yield (removed_active hsettled hmodel)
  | join thread => exact map_fst (h.join hsettled.consistent thread)

theorem first (garbage stale : Int) {newNode mainNode : Fresh Ptr}
    (hadmitted : Op.Admitted (LinkedScheduler.initializeScheduler garbage)
      (.create stale newNode mainNode)) :
    Option.Rel (Linked · · []) ((LinkedScheduler.initializeScheduler garbage).step
      (.create stale newNode mainNode))
      ((Scheduler.initializeScheduler garbage).step (.create stale)) := by
  obtain ⟨created, henqueue, hconsistent, -⟩ :=
    Scheduler.initialize_enqueueThread garbage stale
  refine (initializeScheduler garbage).create stale hadmitted fun added hadded => ?_
  obtain rfl := Option.some.inj (henqueue.symm.trans hadded)
  exact hconsistent.node_active

omit [DecidableEq Ptr] in
/-- The nodes in memory are those of the ready threads, one each. -/
theorem count (h : Linked s model []) : s.nodes.count = model.ready.length := by
  obtain ⟨list1, list2, hlist1, hlist2, hholds⟩ := h.share
  rw [hholds.count, Scheduler.ready, Scheduler.nodes, Queue.waiting, Queue.waiting,
    ← hlist1.values, ← hlist2.values]
  simp

end Linked

theorem rel_left {α β : Type} {r : α → β → Prop} {x : Option α} {y : Option β}
    (h : Option.Rel r x y) {a : α} (hx : x = some a) : ∃ b, y = some b ∧ r a b := by
  subst hx
  cases h with
  | some hr => exact ⟨_, rfl, hr⟩

theorem rel_right {α β : Type} {r : α → β → Prop} {x : Option α} {y : Option β}
    (h : Option.Rel r x y) {b : β} (hy : y = some b) : ∃ a, x = some a ∧ r a b := by
  subst hy
  cases h with
  | some hr => exact ⟨_, rfl, hr⟩

/-- The run lemma. -/
theorem Reachable.linked {exited : List Nat} {s : LinkedScheduler Ptr}
    (h : Reachable exited s) : ∃ model, Scheduler.Reachable exited model ∧ Linked s model [] := by
  induction h with
  | create garbage stale newNode mainNode hadmitted hstep =>
      obtain ⟨model, hmodel, hlinked⟩ := rel_left (Linked.first garbage stale hadmitted) hstep
      exact ⟨model, .create garbage stale hmodel, hlinked⟩
  | step op _ hadmitted hcurrent hstep ih =>
      obtain ⟨model, hreachable, hlinked⟩ := ih
      obtain ⟨next, hmodel, hnext⟩ :=
        rel_left (hlinked.step hreachable.settled hadmitted) hstep
      exact ⟨next, .step op.erase hreachable (hlinked.current.symm.trans hcurrent) hmodel, hnext⟩

/-- On the nodes in memory the scheduler does what `Scheduler` does on lists.  No call
reads or writes a released node or goes round in a loop, no node is lost, and between
two calls the nodes in memory are one for each thread that has not exited. -/
theorem linked_runs {exited : List Nat} {s : LinkedScheduler Ptr} (h : Reachable exited s) :
    (∃ model, Scheduler.Reachable exited model ∧ Linked s model [] ∧
      s.nodes.count = model.ready.length) ∧
    ∀ op : Op Ptr, op.Admitted s → s.current ≠ none →
      (∀ thread, op = .join thread → s.threads thread ≠ none) →
        ∃ next, s.step op = some next := by
  obtain ⟨model, hreachable, hlinked⟩ := h.linked
  refine ⟨⟨model, hreachable, hlinked, hlinked.count⟩, ?_⟩
  intro op hadmitted hrunning hallowed
  obtain ⟨c, hc⟩ := Option.ne_none_iff_exists'.mp hrunning
  have hop : op.erase.Allowed model := by
    cases op with
    | create stale newNode mainNode => trivial
    | yield => trivial
    | exit valuePtr => trivial
    | join thread =>
        have hthread := hallowed thread rfl
        rw [hlinked.threads] at hthread
        exact Option.ne_none_iff_exists'.mp hthread
  obtain ⟨after, hafter, -⟩ :=
    Scheduler.step_settled hreachable.settled (hlinked.current.symm.trans hc) hop
  obtain ⟨next, hnext, -⟩ := rel_right (hlinked.step hreachable.settled hadmitted) hafter
  exact ⟨next, hnext⟩

theorem linked_runs_first_create : ∃ s : LinkedScheduler Nat,
    (initializeScheduler 5).step (.create 7 ⟨40, some 3⟩ ⟨64, some 40⟩) = some s ∧
      s.current = some 1 ∧ ∃ next, s.step .yield = some next := by
  have hadmitted : Op.Admitted (initializeScheduler 5 : LinkedScheduler Nat)
      (.create 7 ⟨40, some 3⟩ ⟨64, some 40⟩) :=
    ⟨rfl, fun _ => ⟨rfl, by decide⟩⟩
  refine ⟨_, rfl, rfl, ?_⟩
  exact (linked_runs (.create 5 7 _ _ hadmitted rfl)).2 .yield trivial
    (Option.some_ne_none _) (fun thread h => by cases h)

end RutgersOS.Assignment2.LinkedScheduler
