import RutgersOS.Assignment2.OsBalance
import RutgersOS.Assignment2.Waiting

namespace RutgersOS.Assignment2.Scheduler

open RutgersOS.Pthread

variable {exited : List Nat} {s : Scheduler} {t : Nat}

theorem yield_first {node : QueueNode} {firsts : List QueueNode} {value : Int}
    (hfirst : s.queuePriority1.waiting = node :: firsts) (hc : s.current = some node.thread)
    (hnode : s.threads node.thread = some ⟨.active, value⟩) {next : Scheduler}
    {switch : Switch} (hyield : s.myPthreadYield = some (next, switch)) :
    next.queuePriority1.waiting = firsts ∧ next.queuePriority2.waiting =
      s.queuePriority2.waiting ++ [{ node with priority := 2 }] := by
  have hpeek : s.queuePriority1.peek = some node := by
    rw [Queue.peek_eq_head, hfirst, List.head?_cons]
  obtain ⟨queue, hdequeue, hwaiting, -⟩ := Queue.dequeue_waiting hfirst
  have hrequeue := requeue_eq (s := { s with
    current := some node.thread, queuePriority1 := queue }) hnode
  simp only [myPthreadYield, hpeek, hc, ne_eq, not_true_eq_false, if_false, hdequeue,
    Option.bind_eq_bind, Option.bind_some, hrequeue, runNext] at hyield
  obtain ⟨head, -, hrun⟩ := Option.bind_eq_some_iff.mp hyield
  obtain ⟨thread, -, hnext⟩ := Option.bind_eq_some_iff.mp hrun
  obtain ⟨rfl, -⟩ := Prod.mk.inj (Option.some.inj hnext)
  exact ⟨hwaiting, Queue.waiting_enqueue _ _⟩

/-- After a `my_pthread_create` a thread of the first queue runs, and the threads of the
second stay there. -/
theorem create_second {c : Nat} (h : Settled exited s) (hc : s.current = some c)
    (ht : t ∈ s.queuePriority2.waiting.map QueueNode.thread) (stale : Int) :
    ∃ next, s.step (.create stale) = some next ∧ Settled exited next ∧
      t ∈ next.queuePriority2.waiting.map QueueNode.thread ∧
      next.queuePriority1.waiting ≠ [] := by
  obtain ⟨next, hstep, hsettled⟩ :=
    step_settled h hc (show Op.Allowed s (.create stale) from trivial)
  refine ⟨next, hstep, hsettled, ?_⟩
  obtain ⟨added, henqueue, hconsistent, hcurrent, -⟩ :=
    enqueueThread_consistent h.consistent stale
  rw [step, myPthreadCreate, henqueue] at hstep
  obtain ⟨⟨_, switch⟩, hyield, rfl⟩ := Option.map_eq_some_iff.mp hstep
  replace hyield : added.myPthreadYield = some (_, switch) := hyield
  rw [enqueueThread_eq h.consistent.mainEnqueued] at henqueue
  have hadded : added.queuePriority1.waiting =
        s.queuePriority1.waiting ++ [⟨s.threadIDS, 1⟩] ∧
      added.queuePriority2 = s.queuePriority2 := by
    obtain rfl := Option.some.inj henqueue
    exact ⟨Queue.waiting_enqueue _ _, rfl⟩
  obtain ⟨rest, hready⟩ := h.ready_cons hc
  cases hfirst : s.queuePriority1.waiting with
  | nil =>
      rw [hfirst, List.nil_append] at hadded
      have hnodes : added.nodes = ⟨s.threadIDS, 1⟩ :: s.queuePriority2.waiting := by
        rw [nodes, hadded.1, hadded.2]
        rfl
      have hlt : c < s.threadIDS :=
        ((h.consistent.ready_iff c).mp (hready ▸ List.mem_cons_self)).1
      have hother : added.current ≠ some s.threadIDS := by
        rw [hcurrent, hc]
        exact fun heq => Nat.ne_of_lt hlt (Option.some.inj heq)
      rw [yield_to_head hnodes hother] at hyield
      obtain ⟨rfl, -⟩ := Prod.mk.inj (Option.some.inj hyield)
      refine ⟨?_, ?_⟩
      · rw [show _ = s.queuePriority2 from hadded.2]
        exact ht
      · rw [show _ = [_] from hadded.1]
        exact List.cons_ne_nil _ _
  | cons first firsts =>
      rw [hfirst, List.cons_append] at hadded
      have hhead : added.current = some first.thread := by
        rw [hcurrent, h.running, ready, nodes, hfirst]
        rfl
      have hmem : first ∈ added.nodes := by
        rw [nodes, hadded.1]
        exact List.mem_append_left _ List.mem_cons_self
      obtain ⟨value, hactive⟩ := hconsistent.node_active first hmem
      obtain ⟨hq1, hq2⟩ := yield_first hadded.1 hhead hactive hyield
      refine ⟨?_, ?_⟩
      · rw [hq2, hadded.2, List.map_append]
        exact List.mem_append_left _ ht
      · rw [hq1]
        exact List.append_ne_nil_of_right_ne_nil _ (List.cons_ne_nil _ _)

theorem Settled.first_runs (h : Settled exited s)
    (ht : t ∈ s.queuePriority2.waiting.map QueueNode.thread)
    (hfirst : s.queuePriority1.waiting ≠ []) : s.current ≠ some t := by
  obtain ⟨first, firsts, hcons⟩ := List.exists_cons_of_ne_nil hfirst
  have hready : s.ready = first.thread ::
      (firsts.map QueueNode.thread ++ s.queuePriority2.waiting.map QueueNode.thread) := by
    rw [ready, nodes, hcons, List.cons_append, List.map_cons, List.map_append]
  have hdistinct := h.consistent.distinct
  rw [hready, List.nodup_cons] at hdistinct
  rw [h.running, hready, List.head?_cons]
  intro heq
  obtain rfl := Option.some.inj heq
  exact hdistinct.1 (List.mem_append_right _ ht)

theorem second_ready (ht : t ∈ s.queuePriority2.waiting.map QueueNode.thread) :
    t ∈ s.ready := by
  rw [ready, nodes, List.map_append]
  exact List.mem_append_right _ ht

end RutgersOS.Assignment2.Scheduler

namespace RutgersOS.Assignment2.Library

open RutgersOS.Memory RutgersOS.Pthread

variable {contextSize : Nat}

/-- The running threads call nothing but `my_pthread_create`, and each call returns. -/
inductive Creating (contextSize : Nat) (first : Library) : Nat → Library → Prop
  | start : Creating contextSize first 0 first
  | create {n : Nat} {s next : Library} (stale : Int) : Creating contextSize first n s →
      s.Allowed contextSize (.call (.create stale)) →
        s.step contextSize (.call (.create stale)) = some next →
          Creating contextSize first (n + 1) next
  | between {n : Nat} {s next : Library} (event : Event) : Creating contextSize first n s →
      (∀ op, event ≠ .call op) → s.Allowed contextSize event →
        s.step contextSize event = some next → Creating contextSize first n next

/-- The run lemma. -/
theorem Creating.starves {exited : List Nat} {s last : Library} {n t : Nat}
    (h : Scheduler.Settled exited s.scheduler)
    (ht : t ∈ s.scheduler.queuePriority2.waiting.map QueueNode.thread)
    (hother : s.scheduler.current ≠ some t) (hrun : Creating contextSize s n last) :
    Scheduler.Settled exited last.scheduler ∧
      t ∈ last.scheduler.queuePriority2.waiting.map QueueNode.thread ∧
        last.scheduler.current ≠ some t := by
  induction hrun with
  | start => exact ⟨h, ht, hother⟩
  | @create n mid next stale _ hallowed hstep ih =>
      obtain ⟨hmid, hwaits, -⟩ := ih
      obtain ⟨c, hc⟩ := hallowed
      obtain ⟨scheduler, hcall, hsettled, hstays, hfirst⟩ :=
        Scheduler.create_second hmid hc hwaits stale
      obtain rfl := Option.some.inj (hcall.symm.trans (create_step hc hstep))
      exact ⟨hsettled, hstays, hsettled.first_runs hstays hfirst⟩
  | between event _ hevent _ hstep ih =>
      rw [step_scheduler hevent hstep]
      exact ih

/-- However many threads are created one by the other, a thread of the second queue does
not run. -/
theorem creates_starve {s last : Library} {n t : Nat} (h : Reachable contextSize s)
    (ht : t ∈ s.scheduler.queuePriority2.waiting.map QueueNode.thread)
    (hother : s.scheduler.current ≠ some t) (hrun : Creating contextSize s n last) :
    last.scheduler.current ≠ some t ∧ t ∈ last.scheduler.ready := by
  obtain ⟨exited, blocks, haccounts⟩ := h.accounts
  obtain ⟨-, hstays, hwaits⟩ := hrun.starves haccounts.settled ht hother
  exact ⟨hwaits, Scheduler.second_ready hstays⟩

theorem Accounts.creating {exited : List Nat} {s : Library} {blocks : List Block}
    {room c : Nat} (h : Accounts 968 exited s blocks) (htail : Tail blocks room)
    (hc : s.scheduler.current = some c) (n : Nat) :
    s.scheduler.threadIDS + n ≤ maxThreads → 14152 * n + 12 ≤ room →
      ∃ last exited' after, Creating 968 s n last ∧ Accounts 968 exited' last after ∧
        Tail after (room - 14152 * n) ∧
          last.scheduler.threadIDS = s.scheduler.threadIDS + n ∧
            ∃ c', last.scheduler.current = some c' := by
  induction n with
  | zero => exact fun _ _ => ⟨s, exited, blocks, .start, h, htail, rfl, c, hc⟩
  | succ n ih =>
      intro hids hroom
      obtain ⟨mid, exited', middle, hrun, hmid, hmiddle, hcount, c', hc'⟩ :=
        ih (by omega) (by omega)
      obtain ⟨last, exited'', after, hstep, hlast, hafter, hcount', hrunning⟩ :=
        hmid.create_tail hmiddle hc' (by omega) (by omega) 8
      refine ⟨last, exited'', after, .create 8 hrun ⟨c', hc'⟩ hstep, hlast, ?_, by omega,
        hrunning⟩
      rw [show room - 14152 * (n + 1) = room - 14152 * n - 14152 by omega]
      exact hafter

/-- The thread 1 waits in the second queue while all other ids are given out. -/
theorem creates_starve_hundred : ∃ s last : Library, Reachable 968 s ∧
    s.scheduler.current = some 0 ∧ Creating 968 s 125 last ∧
      last.scheduler.threadIDS = maxThreads ∧ last.scheduler.current ≠ some 1 ∧
        1 ∈ last.scheduler.ready := by
  obtain ⟨_, first, blocks, hinit, hbefore, haccounts, htail, hfirst⟩ := first_create_returns
  have hreach : Reachable 968 first := .create _ _ _ hinit hbefore
  have hcurrent : some 1 = first.scheduler.current :=
    Option.some.inj (congrArg (Option.map Scheduler.current) hfirst)
  have hids : 2 = first.scheduler.threadIDS :=
    Option.some.inj (congrArg (Option.map Scheduler.threadIDS) hfirst)
  obtain ⟨s, exited, middle, hstep, hs, hmiddle, hcount, -⟩ :=
    haccounts.create_tail htail hcurrent.symm (hids ▸ by decide) (by decide) 8
  have hcreated := then_step hfirst (create_step hcurrent.symm hstep)
  have hc : some 0 = s.scheduler.current :=
    Option.some.inj (congrArg (Option.map Scheduler.current) hcreated)
  have hsecond : [(⟨1, 2⟩ : QueueNode)] = s.scheduler.queuePriority2.waiting :=
    Option.some.inj (congrArg (Option.map fun r : Scheduler => r.queuePriority2.waiting) hcreated)
  have hthreads : maxThreads = 128 := rfl
  obtain ⟨last, _, _, hrun, -, -, hlast, -⟩ :=
    hs.creating hmiddle hc.symm 125 (by omega) (by decide)
  have hreach' : Reachable 968 s := hreach.step (.call (.create 8)) ⟨1, hcurrent.symm⟩ hstep
  obtain ⟨hwaits, hready⟩ := creates_starve (t := 1) hreach'
    (by rw [← hsecond]; decide) (by rw [← hc]; decide) hrun
  exact ⟨s, last, hreach', hc.symm, hrun, by omega, hwaits, hready⟩

end RutgersOS.Assignment2.Library
