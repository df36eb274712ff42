import RutgersOS.Assignment2.RoundRobin

namespace RutgersOS.Assignment2.Scheduler

open RutgersOS.Pthread

/-- A call that ends in a switch to another thread: all but a `my_pthread_join` of a
thread that has completed. -/
def GivesWay (s : Scheduler) : Op → Bool
  | .join thread => (s.threads thread).any fun struct => struct.state ≠ .completed
  | _ => true

def Op.isCreate : Op → Bool
  | .create _ => true
  | _ => false

/-- The calls of the running threads from one state to another, each with the state
that it was made in. -/
inductive Run : Scheduler → List (Scheduler × Op) → Scheduler → Prop
  | nil {s : Scheduler} : Run s [] s
  | cons {s mid next : Scheduler} {trace : List (Scheduler × Op)} (op : Op) :
      s.current ≠ none → s.step op = some mid → Run mid trace next →
        Run s ((s, op) :: trace) next

def turns (trace : List (Scheduler × Op)) : Nat :=
  trace.countP fun call => call.1.GivesWay call.2

def creates (trace : List (Scheduler × Op)) : Nat :=
  trace.countP fun call => call.2.isCreate

theorem turns_cons (s : Scheduler) (op : Op) (trace : List (Scheduler × Op)) :
    turns ((s, op) :: trace) = turns trace + (s.GivesWay op).toNat := by
  rw [turns, List.countP_cons, turns]
  cases s.GivesWay op with
  | false => rfl
  | true => rfl

theorem creates_cons (s : Scheduler) (op : Op) (trace : List (Scheduler × Op)) :
    creates ((s, op) :: trace) = creates trace + op.isCreate.toNat := by
  rw [creates, List.countP_cons, creates]
  cases op.isCreate with
  | false => rfl
  | true => rfl

/-- How many threads run before `t` does. -/
def ahead (s : Scheduler) (t : Nat) : Nat :=
  s.ready.idxOf t

theorem enqueueThread_eq {s : Scheduler} (h : s.mainEnqueued = true) (stale : Int) :
    s.enqueueThread stale = some
      { s.setThread s.threadIDS (some ⟨.active, stale⟩) with
        threadIDS := s.threadIDS + 1
        queuePriority1 := s.queuePriority1.enqueue ⟨s.threadIDS, 1⟩ } := by
  simp [enqueueThread, setThread, h]

inductive Turn (s : Scheduler) : Op → List Nat → Prop
  | yield {c : Nat} {rest : List Nat} (hready : s.ready = c :: rest) :
      Turn s .yield (rest ++ [c])
  | waits {c thread : Nat} {rest : List Nat} (hready : s.ready = c :: rest)
      (hgives : s.GivesWay (.join thread) = true) : Turn s (.join thread) (rest ++ [c])
  | leave {c : Nat} {rest : List Nat} (valuePtr : Int) (hready : s.ready = c :: rest) :
      Turn s (.exit valuePtr) rest
  | behind {c : Nat} {front back : List Nat} (stale : Int)
      (hready : s.ready = c :: (front ++ back)) :
      Turn s (.create stale) (front ++ [s.threadIDS] ++ back ++ [c])
  | before (stale : Int) : Turn s (.create stale) (s.threadIDS :: s.ready)
  | returns {thread : Nat} (hreturns : s.GivesWay (.join thread) = false) :
      Turn s (.join thread) s.ready

section

variable {exited : List Nat} {s next : Scheduler} {t c : Nat} {op : Op}

theorem Settled.ready_cons (h : Settled exited s) (hc : s.current = some c) :
    ∃ rest, s.ready = c :: rest := by
  have hhead := h.running
  rw [hc] at hhead
  exact List.head?_eq_some_iff.mp hhead.symm

theorem yield_ready (h : Settled exited s) {rest : List Nat} (hready : s.ready = c :: rest) :
    ∃ next switch, s.myPthreadYield = some (next, switch) ∧ next.ready = rest ++ [c] := by
  obtain ⟨next, switch, hyield, -, hturned⟩ :=
    yield_turns h (by rw [hready]; exact List.cons_ne_nil _ _)
  refine ⟨next, switch, hyield, ?_⟩
  rw [hturned, hready, List.rotate_cons_succ, List.rotate_zero]

theorem create_ready (h : Settled exited s) {rest : List Nat} (hready : s.ready = c :: rest)
    (stale : Int) {switch : Switch} (hcreate : s.myPthreadCreate stale = some (next, switch)) :
    Turn s (.create stale) next.ready := by
  obtain ⟨added, henqueue, hconsistent, hcurrent, -⟩ :=
    enqueueThread_consistent h.consistent stale
  rw [myPthreadCreate, henqueue] at hcreate
  replace hcreate : added.myPthreadYield = some (next, switch) := hcreate
  rw [enqueueThread_eq h.consistent.mainEnqueued] at henqueue
  have hrunning : added.current = some c := by
    rw [hcurrent, h.running, hready, List.head?_cons]
  have hadded : added.nodes =
      s.queuePriority1.waiting ++ [⟨s.threadIDS, 1⟩] ++ s.queuePriority2.waiting := by
    obtain rfl := Option.some.inj henqueue
    rw [nodes, Queue.waiting_enqueue]
    rfl
  cases hfirst : s.queuePriority1.waiting with
  | nil =>
      -- the new thread is alone in the first queue
      rw [hfirst, List.nil_append, List.singleton_append] at hadded
      have hsecond : s.ready = s.queuePriority2.waiting.map QueueNode.thread := by
        rw [ready, nodes, hfirst, List.nil_append]
      have hlt : c < s.threadIDS :=
        ((h.consistent.ready_iff c).mp (hready ▸ List.mem_cons_self)).1
      have hother : added.current ≠ some s.threadIDS := by
        rw [hrunning]
        exact fun heq => Nat.ne_of_lt hlt (Option.some.inj heq)
      rw [yield_to_head hadded hother] at hcreate
      obtain ⟨rfl, -⟩ := Prod.mk.inj (Option.some.inj hcreate)
      have hbefore : added.ready = s.threadIDS :: s.ready := by
        rw [ready, hadded, List.map_cons, hsecond]
      exact hbefore ▸ .before stale
  | cons first firsts =>
      rw [hfirst] at hadded
      have hlist : s.ready = first.thread ::
          (firsts.map QueueNode.thread ++ s.queuePriority2.waiting.map QueueNode.thread) := by
        rw [ready, nodes, hfirst, List.cons_append, List.map_cons, List.map_append]
      have hc : c = first.thread := by
        rw [hready] at hlist
        exact (List.cons.inj hlist).1
      obtain ⟨rotated, t, hyield, -, hrotated⟩ :=
        yield_rotate hadded (hc ▸ hrunning) hconsistent.node_active
      obtain ⟨rfl, -⟩ := Prod.mk.inj (Option.some.inj (hyield.symm.trans hcreate))
      have hbehind : rotated.ready = firsts.map QueueNode.thread ++ [s.threadIDS] ++
          s.queuePriority2.waiting.map QueueNode.thread ++ [first.thread] := by
        rw [ready, hrotated.nodes]
        simp
      exact hbehind ▸ .behind stale hlist

/-- The step lemma. -/
theorem Settled.turn (h : Settled exited s) (hc : s.current = some c)
    (hstep : s.step op = some next) : Turn s op next.ready := by
  obtain ⟨rest, hready⟩ := h.ready_cons hc
  obtain ⟨turned, switch, hyield, hturned⟩ := yield_ready h hready
  cases op with
  | create stale =>
      obtain ⟨⟨_, switch⟩, hcreate, rfl⟩ := Option.map_eq_some_iff.mp hstep
      exact create_ready h hready stale hcreate
  | yield =>
      rw [step, hyield] at hstep
      obtain rfl := Option.some.inj hstep
      exact hturned ▸ .yield hready
  | exit valuePtr =>
      obtain ⟨left, switch, hexit, -, node, rfl, hnodes⟩ := exit_settled h hc valuePtr
      rw [step, hexit] at hstep
      obtain rfl := Option.some.inj hstep
      refine .leave valuePtr (c := node.thread) ?_
      rw [ready, hnodes, List.map_cons, ready]
  | join thread =>
      rw [step, myPthreadJoin] at hstep
      cases hthread : s.threads thread with
      | none =>
          rw [hthread] at hstep
          cases hstep
      | some struct =>
          rcases Classical.em (struct.state = .completed) with hcompleted | hwaiting
          · simp [hthread, hcompleted] at hstep
            obtain rfl := hstep
            exact .returns (by simp [GivesWay, hthread, hcompleted])
          · simp [hthread, hwaiting, hyield] at hstep
            obtain rfl := hstep
            exact hturned ▸ .waits hready (by simp [GivesWay, hthread, hwaiting])

/-- A call of another thread moves `t` up by one place, if it switches, but a new
thread may come in between. -/
theorem Turn.ahead_le {list : List Nat} (h : Turn s op list) (ht : t ∈ s.ready)
    (hhead : s.ready.head? ≠ some t) (hnew : t ≠ s.threadIDS) :
    t ∈ list ∧ list.idxOf t + (s.GivesWay op).toNat ≤ s.ahead t + 2 * op.isCreate.toNat := by
  have hbehind : ∀ {c : Nat} {rest : List Nat}, s.ready = c :: rest →
      t ∈ rest ∧ s.ahead t = rest.idxOf t + 1 := by
    intro c rest hready
    have hne : c ≠ t := by
      rintro rfl
      rw [hready] at hhead
      exact hhead rfl
    refine ⟨?_, by rw [ahead, hready, List.idxOf_cons_ne _ hne]⟩
    rw [hready] at ht
    exact (List.mem_cons.mp ht).resolve_left hne.symm
  cases h with
  | yield hready =>
      obtain ⟨hmem, hahead⟩ := hbehind hready
      refine ⟨List.mem_append_left _ hmem, ?_⟩
      rw [List.idxOf_append_of_mem hmem, hahead]
      exact Nat.le_refl _
  | waits hready hgives =>
      obtain ⟨hmem, hahead⟩ := hbehind hready
      refine ⟨List.mem_append_left _ hmem, ?_⟩
      rw [List.idxOf_append_of_mem hmem, hgives, hahead]
      exact Nat.le_refl _
  | leave valuePtr hready =>
      obtain ⟨hmem, hahead⟩ := hbehind hready
      refine ⟨hmem, ?_⟩
      rw [hahead]
      exact Nat.le_refl _
  | @behind c front back stale hready =>
      obtain ⟨hmem, hahead⟩ := hbehind hready
      rw [hahead]
      change _ ∧ _ + 1 ≤ _ + 2 * 1
      rcases Classical.em (t ∈ front) with hfront | hnot
      · refine ⟨by simp [hfront], ?_⟩
        rw [List.append_assoc, List.append_assoc, List.idxOf_append_of_mem hfront,
          List.idxOf_append_of_mem hfront]
        omega
      · have hback := (List.mem_append.mp hmem).resolve_left hnot
        have hlater : t ∉ front ++ [s.threadIDS] := by simp [hnot, hnew]
        refine ⟨by simp [hback], ?_⟩
        rw [List.append_assoc, List.idxOf_append_of_notMem hlater,
          List.idxOf_append_of_mem hback, List.idxOf_append_of_notMem hnot,
          List.length_append, List.length_singleton]
        omega
  | before stale =>
      refine ⟨List.mem_cons_of_mem _ ht, ?_⟩
      rw [List.idxOf_cons_ne _ hnew.symm, ahead]
      change _ + 1 + 1 ≤ _ + 2 * 1
      omega
  | returns hreturns =>
      refine ⟨ht, ?_⟩
      rw [hreturns, ahead]
      exact Nat.le_add_right _ _

/-- The run lemma. -/
theorem Run.ahead_le {trace : List (Scheduler × Op)} (hrun : Run s trace next) :
    ∀ {exited : List Nat}, Settled exited s → t ∈ s.ready →
      (∀ call ∈ trace, call.1.current ≠ some t) →
        t ∈ next.ready ∧ next.ahead t + turns trace ≤ s.ahead t + 2 * creates trace ∧
          ∃ exited, Settled exited next := by
  induction hrun with
  | nil => exact fun h ht _ => ⟨ht, Nat.le_refl _, _, h⟩
  | @cons s mid next trace op hrunning hstep _ ih =>
      intro exited h ht hwaits
      obtain ⟨c, hc⟩ := Option.ne_none_iff_exists'.mp hrunning
      have hother := hwaits (s, op) List.mem_cons_self
      rw [h.running] at hother
      obtain ⟨hmid, hmoved⟩ := (h.turn hc hstep).ahead_le ht hother
        (Nat.ne_of_lt ((h.consistent.ready_iff t).mp ht).1)
      obtain ⟨after, hafter, hsettled⟩ :=
        step_settled h hc (Op.allowed_of_step hstep)
      obtain rfl := Option.some.inj (hstep.symm.trans hafter)
      obtain ⟨hnext, hle, hend⟩ :=
        ih hsettled hmid fun call hcall => hwaits call (List.mem_cons_of_mem _ hcall)
      refine ⟨hnext, ?_, hend⟩
      change mid.ahead t + _ ≤ _ at hmoved
      rw [turns_cons, creates_cons]
      omega

end

/-- A ready thread waits for at most as many switches as there are threads ahead of
it, and two more for each `my_pthread_create` in the meantime. -/
theorem bounded_waiting {exited : List Nat} {s next : Scheduler} {t : Nat}
    {trace : List (Scheduler × Op)} (h : Reachable exited s) (ht : t ∈ s.ready)
    (hrun : Run s trace next) (hwaits : ∀ call ∈ trace, call.1.current ≠ some t) :
    turns trace ≤ s.ahead t + 2 * creates trace ∧
      (turns trace = s.ahead t + 2 * creates trace → next.current = some t) ∧
      t ∈ next.ready := by
  obtain ⟨hnext, hle, exited', hsettled⟩ := hrun.ahead_le h.settled ht hwaits
  refine ⟨by omega, fun heq => ?_, hnext⟩
  have hzero : next.ready.idxOf t = 0 := by
    rw [ahead] at hle
    omega
  have hlt : 0 < next.ready.length := List.length_pos_of_mem hnext
  have hget := List.getElem_idxOf (List.idxOf_lt_length_of_mem hnext)
  rw [hsettled.running, List.head?_eq_getElem?, List.getElem?_eq_getElem hlt]
  simp only [hzero] at hget
  rw [hget]

theorem bounded_waiting_pair : ∃ s next : Scheduler,
    (initializeScheduler 5).step (.create 7) = some s ∧ s.step .yield = some next ∧
      next.current = some 0 := by
  refine ⟨_, _, rfl, rfl, ?_⟩
  exact (bounded_waiting (t := 0) (.create 5 7 rfl) (by decide)
    (.cons .yield (Option.some_ne_none _) rfl .nil) (by decide)).2.1 (by decide)

end RutgersOS.Assignment2.Scheduler
