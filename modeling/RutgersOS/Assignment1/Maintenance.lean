import RutgersOS.Assignment2.ReadyQueues

namespace RutgersOS.Assignment1.Maintenance

open RutgersOS.Pthread RutgersOS.Assignment2

/-! `Assignment1/my_pthread.c` when no signal interrupts its calls and
`maintenanceCycle` comes between two of them.  Its yield and its exit are those of
the second assignment without the pages; `mainEnqueued` is `isInitialized`. -/

/-- The main thread has no struct before the first `my_pthread_create`. -/
def initial : Scheduler where
  threadIDS := 1
  mainEnqueued := false
  current := none
  queuePriority1 := .empty
  queuePriority2 := .empty
  threads _ := none

def myPthreadYield (s : Scheduler) : Option (Scheduler × Switch) :=
  s.myPthreadYield

def myPthreadExit (s : Scheduler) (valuePtr : Int) : Option (Scheduler × Switch) :=
  s.myPthreadExit valuePtr

/-- `my_pthread_create` up to its yield.  `stale` and `mainStale` are what the two
new structs hold as their `return_value`. -/
def enqueueThread (s : Scheduler) (stale mainStale : Int) : Scheduler :=
  let thread := s.threadIDS
  let s := s.setThread thread (some ⟨.active, stale⟩)
  let s :=
    { s with
      threadIDS := thread + 1
      queuePriority1 := s.queuePriority1.enqueue ⟨thread, 1⟩ }
  if s.mainEnqueued then s
  else
    { s.setThread 0 (some ⟨.active, mainStale⟩) with
      mainEnqueued := true
      current := some 0
      queuePriority1 := s.queuePriority1.enqueue ⟨0, 1⟩ }

def myPthreadCreate (s : Scheduler) (stale mainStale : Int) :
    Option (Scheduler × Switch) :=
  myPthreadYield (enqueueThread s stale mainStale)

/-- The two tails change places; `priority1_size` and `priority2_size` do not. -/
def maintenanceCycle (s : Scheduler) : Scheduler :=
  { s with
    queuePriority1 := { s.queuePriority1 with tail := s.queuePriority2.tail }
    queuePriority2 := { s.queuePriority2 with tail := s.queuePriority1.tail } }

inductive Op where
  | create (stale mainStale : Int)
  | yield
  | exit (valuePtr : Int)
  | maintenanceCycle

def step (s : Scheduler) : Op → Option Scheduler
  | .create stale mainStale => (myPthreadCreate s stale mainStale).map Prod.fst
  | .yield => (myPthreadYield s).map Prod.fst
  | .exit valuePtr => (myPthreadExit s valuePtr).map Prod.fst
  | .maintenanceCycle => some (maintenanceCycle s)

def Op.exits (s : Scheduler) (exited : List Nat) : Op → List Nat
  | .exit _ => s.current.toList ++ exited
  | _ => exited

/-- A maintenance cycle finds as many threads in the one queue as in the other. -/
def Op.Balanced (s : Scheduler) (op : Op) : Prop :=
  op = .maintenanceCycle →
    s.queuePriority1.tail.length = s.queuePriority2.tail.length

/-- The states of the runs whose maintenance cycles are all balanced. -/
inductive Reachable : List Nat → Scheduler → Prop
  | initial : Reachable [] initial
  | step {exited : List Nat} {s next : Scheduler} (op : Op) :
      Reachable exited s → op.Balanced s → step s op = some next →
        Reachable (op.exits s exited) next

def Takes (s next : Scheduler) (c : Nat) : Prop :=
  ∃ node, node.thread = c ∧
    (s.queuePriority1.waiting = node :: next.queuePriority1.waiting ∧
        next.queuePriority2.waiting = s.queuePriority2.waiting ∨
      s.queuePriority2.waiting = node :: next.queuePriority2.waiting ∧
        next.queuePriority1.waiting = s.queuePriority1.waiting)

structure WellKept (exited : List Nat) (s : Scheduler) : Prop where
  size1 : s.queuePriority1.size = s.queuePriority1.tail.length
  size2 : s.queuePriority2.size = s.queuePriority2.tail.length
  placed : ∀ t thread, s.threads t = some thread → t ∉ exited → s.ready.count t = 1
  exits : ∀ c valuePtr, s.current = some c → ∃ next switch,
    myPthreadExit s valuePtr = some (next, switch) ∧ Takes s next c

structure Placed (exited : List Nat) (s : Scheduler) : Prop where
  distinct : s.ready.Nodup
  active : ∀ t ∈ s.ready, ∃ value, s.threads t = some ⟨.active, value⟩
  ready_iff : ∀ t, t ∈ s.ready ↔ s.threads t ≠ none ∧ t ∉ exited
  created : ∀ t, s.threads t ≠ none → t < s.threadIDS
  exited_created : ∀ t ∈ exited, s.threads t ≠ none
  main : s.mainEnqueued = false → s.threads 0 = none
  ids_pos : 0 < s.threadIDS

def Heads (s : Scheduler) : Prop :=
  ∀ c, s.current = some c →
    s.queuePriority1.waiting.head?.map QueueNode.thread = some c ∨
      s.queuePriority2.waiting.head?.map QueueNode.thread = some c

def Sized (s : Scheduler) : Prop :=
  s.queuePriority1.Counted ∧ s.queuePriority2.Counted

theorem Placed.reorder {exited : List Nat} {s next : Scheduler} (h : Placed exited s)
    (hready : next.ready.Perm s.ready) (hthreads : next.threads = s.threads)
    (hids : next.threadIDS = s.threadIDS)
    (hmain : next.mainEnqueued = s.mainEnqueued) : Placed exited next where
  distinct := hready.nodup_iff.mpr h.distinct
  active t ht := by
    rw [hthreads]
    exact h.active t (hready.mem_iff.mp ht)
  ready_iff t := by
    rw [hready.mem_iff, hthreads]
    exact h.ready_iff t
  created t ht := by
    rw [hids]
    exact h.created t (hthreads ▸ ht)
  exited_created t ht := by
    rw [hthreads]
    exact h.exited_created t ht
  main hmain' := by
    rw [hthreads]
    exact h.main (hmain ▸ hmain')
  ids_pos := by
    rw [hids]
    exact h.ids_pos

theorem heads_of_ready {s : Scheduler} (h : s.current = s.ready.head?) : Heads s := by
  intro c hc
  rw [hc, Scheduler.ready, List.head?_map, Scheduler.nodes] at h
  cases hfirst : s.queuePriority1.waiting with
  | nil =>
      rw [hfirst, List.nil_append] at h
      exact Or.inr h.symm
  | cons first firsts =>
      rw [hfirst, List.cons_append, List.head?_cons] at h
      exact Or.inl h.symm

/-- A yield leaves the running thread at the head of the first queue that has a
node, whichever queue it headed before. -/
theorem Placed.yields {exited : List Nat} {s : Scheduler} (h : Placed exited s)
    (hidle : s.nodes = [] → s.current = none) :
    ∃ next switch, myPthreadYield s = some (next, switch) ∧ Placed exited next ∧
      Heads next ∧ (Sized s → Sized next) := by
  cases hnodes : s.nodes with
  | nil =>
      refine ⟨s, .stay, Scheduler.yield_empty hnodes, h, ?_, id⟩
      intro c hc
      rw [hidle hnodes] at hc
      cases hc
  | cons node rest =>
      have hready : s.ready = node.thread :: rest.map QueueNode.thread := by
        rw [Scheduler.ready, hnodes, List.map_cons]
      rcases Classical.em (s.current = some node.thread) with hhead | hother
      · have hactive : ∀ n ∈ s.nodes, ∃ value,
            s.threads n.thread = some ⟨.active, value⟩ :=
          fun n hn => h.active n.thread (List.mem_map_of_mem hn)
        obtain ⟨next, t, hyield, -, hrotated⟩ :=
          Scheduler.yield_rotate hnodes hhead hactive
        have hperm : next.ready.Perm s.ready := by
          rw [Scheduler.ready, hrotated.nodes, hready, List.map_append]
          exact List.perm_append_singleton _ _
        exact ⟨next, _, hyield, h.reorder hperm hrotated.threads hrotated.threadIDS
          hrotated.mainEnqueued, heads_of_ready hrotated.current,
          fun hsized => ⟨hrotated.counted1 hsized.1, hrotated.counted2 hsized.2⟩⟩
      · refine ⟨_, _, Scheduler.yield_to_head hnodes hother,
          h.reorder (List.Perm.refl _) rfl rfl rfl, heads_of_ready ?_, id⟩
        change some node.thread = s.ready.head?
        rw [hready, List.head?_cons]

/-- `my_pthread_exit` compares ids with the head of `queue_priority_1` only; a
running thread that is not there heads `queue_priority_2`. -/
theorem Placed.removeCurrent {exited : List Nat} {s : Scheduler} (h : Placed exited s)
    (hheads : Heads s) {c : Nat} (hc : s.current = some c) (valuePtr : Int) :
    ∃ next, s.removeCurrent valuePtr = some next ∧ Takes s next c ∧
      next.current = none ∧ Placed (c :: exited) next ∧ (Sized s → Sized next) := by
  have hmem : ∀ node, node ∈ s.nodes → ∃ value,
      s.threads node.thread = some ⟨.active, value⟩ :=
    fun node hnode => h.active node.thread (List.mem_map_of_mem hnode)
  -- the node that goes, from whichever queue
  obtain ⟨next, value, hremove, htakes, hperm, hthreads, hnone, hids, hmain, hsized⟩ :
      ∃ next value, s.removeCurrent valuePtr = some next ∧ Takes s next c ∧
        s.ready.Perm (c :: next.ready) ∧
        next.threads = Function.update s.threads c (some ⟨.completed, value⟩) ∧
        next.current = none ∧ next.threadIDS = s.threadIDS ∧
        next.mainEnqueued = s.mainEnqueued ∧ (Sized s → Sized next) := by
    rcases Classical.em (s.queuePriority1.waiting.head?.map QueueNode.thread = some c)
      with hfirst | hfirst
    · obtain ⟨node, hhead, rfl⟩ := Option.map_eq_some_iff.mp hfirst
      obtain ⟨rest, hwaiting⟩ := List.head?_eq_some_iff.mp hhead
      obtain ⟨value, hactive⟩ := hmem node (by simp [Scheduler.nodes, hwaiting])
      obtain ⟨queue, hremove, hrest, hcounted⟩ :=
        Scheduler.removeCurrent_first hwaiting hc hactive valuePtr
      refine ⟨_, _, hremove, ⟨node, rfl, Or.inl ⟨?_, rfl⟩⟩, ?_, rfl, rfl, rfl, rfl,
        fun hsized => ⟨hcounted hsized.1, hsized.2⟩⟩
      · rw [hwaiting, ← hrest]
      · simp [Scheduler.ready, Scheduler.nodes, hwaiting, hrest, Scheduler.setThread]
    · obtain ⟨node, hhead, rfl⟩ :=
        Option.map_eq_some_iff.mp ((hheads c hc).resolve_left hfirst)
      obtain ⟨rest, hwaiting⟩ := List.head?_eq_some_iff.mp hhead
      obtain ⟨value, hactive⟩ := hmem node (by simp [Scheduler.nodes, hwaiting])
      have hother : ∀ first ∈ s.queuePriority1.waiting.head?,
          first.thread ≠ node.thread := by
        intro first hmem heq
        rw [Option.mem_def.mp hmem, Option.map_some, heq] at hfirst
        exact hfirst rfl
      obtain ⟨queue, hremove, hrest, hcounted⟩ :=
        Scheduler.removeCurrent_second hc hother hwaiting hactive valuePtr
      refine ⟨_, _, hremove, ⟨node, rfl, Or.inr ⟨?_, rfl⟩⟩, ?_, rfl, rfl, rfl, rfl,
        fun hsized => ⟨hsized.1, hcounted hsized.2⟩⟩
      · rw [hwaiting, ← hrest]
      · simp only [Scheduler.ready, Scheduler.nodes, hwaiting, hrest, List.map_append,
          List.map_cons]
        exact List.perm_middle
  refine ⟨next, hremove, htakes, hnone, ?_, hsized⟩
  have hdistinct := List.nodup_cons.mp (hperm.nodup_iff.mp h.distinct)
  have hne : ∀ t ∈ next.ready, t ≠ c := fun t ht heq => hdistinct.1 (heq ▸ ht)
  have hexists : ∀ t, next.threads t ≠ none ↔ s.threads t ≠ none := by
    intro t
    rw [hthreads]
    rcases Classical.em (t = c) with rfl | hdiffers
    · rw [Function.update_self]
      exact iff_of_true (Option.some_ne_none _) ((h.ready_iff t).mp (hperm.mem_iff.mpr
        List.mem_cons_self)).1
    · rw [Function.update_of_ne hdiffers]
  refine
    { distinct := hdistinct.2
      active := ?_
      ready_iff := ?_
      created := ?_
      exited_created := ?_
      main := ?_
      ids_pos := hids ▸ h.ids_pos }
  · intro t ht
    rw [hthreads, Function.update_of_ne (hne t ht)]
    exact h.active t (hperm.mem_iff.mpr (List.mem_cons_of_mem c ht))
  · intro t
    rw [hexists t, List.mem_cons, not_or]
    have hiff := h.ready_iff t
    rw [hperm.mem_iff, List.mem_cons] at hiff
    constructor
    · intro ht
      obtain ⟨hthread, hnot⟩ := hiff.mp (Or.inr ht)
      exact ⟨hthread, hne t ht, hnot⟩
    · rintro ⟨hthread, hdiffers, hnot⟩
      exact (hiff.mpr ⟨hthread, hnot⟩).resolve_left hdiffers
  · intro t ht
    rw [hids]
    exact h.created t ((hexists t).mp ht)
  · intro t ht
    rw [hexists t]
    rcases List.mem_cons.mp ht with rfl | hold
    · exact ((h.ready_iff t).mp (hperm.mem_iff.mpr List.mem_cons_self)).1
    · exact h.exited_created t hold
  · intro hfalse
    have hnothing := h.main (hmain ▸ hfalse)
    exact Classical.not_not.mp fun hthread => (hexists 0).mp hthread hnothing

theorem Placed.insert {exited : List Nat} {s next : Scheduler} (h : Placed exited s)
    {t : Nat} {value : Int} (hnew : s.threads t = none)
    (hready : next.ready.Perm (t :: s.ready))
    (hthreads : next.threads = Function.update s.threads t (some ⟨.active, value⟩))
    (hids : s.threadIDS ≤ next.threadIDS) (hlt : t < next.threadIDS)
    (hmain : next.mainEnqueued = false → next.threads 0 = none) :
    Placed exited next := by
  have habsent : t ∉ s.ready := fun ht => ((h.ready_iff t).mp ht).1 hnew
  have hrunning : t ∉ exited := fun ht => h.exited_created t ht hnew
  have hself : next.threads t ≠ none := by
    rw [hthreads, Function.update_self]
    nofun
  have hold : ∀ u, u ≠ t → next.threads u = s.threads u := by
    intro u hne
    rw [hthreads, Function.update_of_ne hne]
  refine
    { distinct := hready.nodup_iff.mpr (List.nodup_cons.mpr ⟨habsent, h.distinct⟩)
      active := ?_
      ready_iff := ?_
      created := ?_
      exited_created := ?_
      main := hmain
      ids_pos := Nat.lt_of_lt_of_le h.ids_pos hids }
  · intro u hu
    rcases List.mem_cons.mp (hready.mem_iff.mp hu) with rfl | hu
    · rw [hthreads, Function.update_self]
      exact ⟨value, rfl⟩
    · rw [hold u fun heq => habsent (heq ▸ hu)]
      exact h.active u hu
  · intro u
    rw [hready.mem_iff, List.mem_cons]
    rcases Classical.em (u = t) with rfl | hne
    · exact iff_of_true (Or.inl rfl) ⟨hself, hrunning⟩
    · rw [hold u hne, ← h.ready_iff u]
      exact or_iff_right hne
  · intro u hu
    rcases Classical.em (u = t) with rfl | hne
    · exact hlt
    · rw [hold u hne] at hu
      exact Nat.lt_of_lt_of_le (h.created u hu) hids
  · intro u hu
    rw [hold u fun heq => hrunning (heq ▸ hu)]
    exact h.exited_created u hu

theorem Placed.enqueueThread {exited : List Nat} {s : Scheduler} (h : Placed exited s)
    (stale mainStale : Int) :
    Placed exited (enqueueThread s stale mainStale) ∧
      (enqueueThread s stale mainStale).nodes ≠ [] ∧
      (Sized s → Sized (enqueueThread s stale mainStale)) := by
  have hfresh : s.threads s.threadIDS = none :=
    Classical.not_not.mp fun hthread =>
      Nat.lt_irrefl _ (h.created s.threadIDS hthread)
  have hpush : ∀ (t : Nat) (first second : Queue QueueNode),
      (((first.enqueue ⟨t, 1⟩).waiting ++ second.waiting).map QueueNode.thread).Perm
        (t :: (first.waiting ++ second.waiting).map QueueNode.thread) := by
    intro t first second
    rw [Queue.waiting_enqueue, List.append_assoc, List.singleton_append]
    exact List.perm_middle.map QueueNode.thread
  have hadded : ∀ main, (main = false → s.mainEnqueued = false) →
      Placed exited { s.setThread s.threadIDS (some ⟨.active, stale⟩) with
        mainEnqueued := main
        threadIDS := s.threadIDS + 1
        queuePriority1 := s.queuePriority1.enqueue ⟨s.threadIDS, 1⟩ } := by
    intro main hmain
    refine h.insert hfresh (hpush _ _ _) rfl (Nat.le_succ _) (Nat.lt_succ_self _) ?_
    intro hfalse
    change Function.update s.threads s.threadIDS _ 0 = none
    rw [Function.update_of_ne (Nat.ne_of_lt h.ids_pos)]
    exact h.main (hmain hfalse)
  unfold Maintenance.enqueueThread
  cases hmain : s.mainEnqueued with
  | true =>
      have hplaced := hadded true fun heq => Bool.noConfusion heq
      rw [← hmain] at hplaced
      refine ⟨?_, ?_, ?_⟩
      · simpa [Scheduler.setThread, hmain] using hplaced
      · simp [Scheduler.setThread, hmain, Scheduler.nodes]
      · intro hsized
        simpa [Scheduler.setThread, hmain, Sized] using
          ⟨hsized.1.enqueue ⟨s.threadIDS, 1⟩, hsized.2⟩
  | false =>
      have hplaced := hadded false fun _ => hmain
      have hmainless : Function.update s.threads s.threadIDS
          (some ⟨.active, stale⟩) 0 = none := by
        rw [Function.update_of_ne (Nat.ne_of_lt h.ids_pos)]
        exact h.main hmain
      refine ⟨?_, ?_, ?_⟩
      · simp only [Scheduler.setThread, hmain, Bool.false_eq_true, if_false]
        exact hplaced.insert hmainless (hpush _ _ _) rfl (Nat.le_refl _)
          (Nat.succ_pos _) fun heq => Bool.noConfusion heq
      · simp [Scheduler.setThread, hmain, Scheduler.nodes]
      · intro hsized
        simpa [Scheduler.setThread, hmain, Sized] using
          ⟨(hsized.1.enqueue ⟨s.threadIDS, 1⟩).enqueue ⟨0, 1⟩, hsized.2⟩

theorem waiting_maintenanceCycle (s : Scheduler) :
    (maintenanceCycle s).queuePriority1.waiting = s.queuePriority2.waiting ∧
      (maintenanceCycle s).queuePriority2.waiting = s.queuePriority1.waiting :=
  ⟨rfl, rfl⟩

theorem Placed.maintenanceCycle {exited : List Nat} {s : Scheduler}
    (h : Placed exited s) : Placed exited (maintenanceCycle s) := by
  refine h.reorder ?_ rfl rfl rfl
  rw [Scheduler.ready, Scheduler.nodes, (waiting_maintenanceCycle s).1,
    (waiting_maintenanceCycle s).2]
  exact List.perm_append_comm.map QueueNode.thread

theorem Heads.maintenanceCycle {s : Scheduler} (h : Heads s) :
    Heads (maintenanceCycle s) :=
  fun c hc => (h c hc).symm

theorem Sized.maintenanceCycle_iff {s : Scheduler} (h : Sized s) :
    Sized (maintenanceCycle s) ↔
      s.queuePriority1.tail.length = s.queuePriority2.tail.length := by
  obtain ⟨hfirst, hsecond⟩ := h
  unfold Queue.Counted at hfirst hsecond
  simp only [Sized, Queue.Counted, Maintenance.maintenanceCycle, hfirst, hsecond]
  omega

theorem Placed.exit {exited : List Nat} {s : Scheduler} (h : Placed exited s)
    (hheads : Heads s) {c : Nat} (hc : s.current = some c) (valuePtr : Int) :
    ∃ next switch, myPthreadExit s valuePtr = some (next, switch) ∧ Takes s next c ∧
      Placed (c :: exited) next ∧ Heads next ∧ (Sized s → Sized next) := by
  obtain ⟨removed, hremove, htakes, hnone, hplaced, hsized⟩ :=
    h.removeCurrent hheads hc valuePtr
  obtain ⟨next, switch, hyield, hnext, hrunning, hkept⟩ :=
    hplaced.yields fun _ => hnone
  refine ⟨next, switch, ?_, ?_, hnext, hrunning, hkept ∘ hsized⟩
  · rw [myPthreadExit, Scheduler.myPthreadExit, hremove]
    exact hyield
  · -- with no running thread a yield moves no node
    unfold myPthreadYield at hyield
    cases hnodes : removed.nodes with
    | nil =>
        rw [Scheduler.yield_empty hnodes] at hyield
        cases hyield
        exact htakes
    | cons node rest =>
        have hother : removed.current ≠ some node.thread := by
          rw [hnone]
          exact (Option.some_ne_none node.thread).symm
        rw [Scheduler.yield_to_head hnodes hother] at hyield
        cases hyield
        exact htakes

theorem Heads.idle {s : Scheduler} (h : Heads s) (hnodes : s.nodes = []) :
    s.current = none := by
  cases hc : s.current with
  | none => rfl
  | some c =>
      obtain ⟨hfirst, hsecond⟩ := List.append_eq_nil_iff.mp hnodes
      rcases h c hc with hhead | hhead
      · rw [hfirst] at hhead
        cases hhead
      · rw [hsecond] at hhead
        cases hhead

/-- The step lemma.  Only a maintenance cycle can part a size from its queue. -/
theorem Placed.step {exited : List Nat} {s next : Scheduler} (h : Placed exited s)
    (hheads : Heads s) {op : Op} (hstep : Maintenance.step s op = some next) :
    Placed (op.exits s exited) next ∧ Heads next ∧
      (Sized s → (Sized next ↔ op.Balanced s)) := by
  cases op with
  | create stale mainStale =>
      obtain ⟨hadded, hnodes, hcounted⟩ := h.enqueueThread stale mainStale
      obtain ⟨last, switch, hyield, hlast, hrunning, hsized⟩ :=
        hadded.yields fun hnil => absurd hnil hnodes
      simp only [Maintenance.step, myPthreadCreate, hyield, Option.map_some,
        Option.some.injEq] at hstep
      subst hstep
      exact ⟨hlast, hrunning, fun hs =>
        iff_of_true (hsized (hcounted hs)) fun heq => Op.noConfusion heq⟩
  | yield =>
      obtain ⟨last, switch, hyield, hlast, hrunning, hsized⟩ := h.yields hheads.idle
      simp only [Maintenance.step, hyield, Option.map_some, Option.some.injEq] at hstep
      subst hstep
      exact ⟨hlast, hrunning, fun hs =>
        iff_of_true (hsized hs) fun heq => Op.noConfusion heq⟩
  | exit valuePtr =>
      cases hc : s.current with
      | none =>
          simp [Maintenance.step, myPthreadExit, Scheduler.myPthreadExit,
            Scheduler.removeCurrent, hc] at hstep
      | some c =>
          obtain ⟨last, switch, hexit, -, hlast, hrunning, hsized⟩ :=
            h.exit hheads hc valuePtr
          simp only [Maintenance.step, hexit, Option.map_some, Option.some.injEq]
            at hstep
          subst hstep
          refine ⟨?_, hrunning, fun hs =>
            iff_of_true (hsized hs) fun heq => Op.noConfusion heq⟩
          rw [Op.exits, hc]
          exact hlast
  | maintenanceCycle =>
      obtain rfl := Option.some.inj hstep
      refine ⟨h.maintenanceCycle, hheads.maintenanceCycle, fun hs => ?_⟩
      rw [hs.maintenanceCycle_iff]
      exact ⟨fun heq _ => heq, fun hbalanced => hbalanced rfl⟩

/-- The run lemma. -/
theorem Reachable.placed {exited : List Nat} {s : Scheduler} (h : Reachable exited s) :
    Placed exited s ∧ Heads s ∧ Sized s := by
  induction h with
  | initial =>
      refine ⟨?_, nofun, rfl, rfl⟩
      exact
        { distinct := List.nodup_nil
          active := nofun
          ready_iff := fun t => iff_of_false List.not_mem_nil fun ht => ht.1 rfl
          created := fun t ht => absurd rfl ht
          exited_created := nofun
          main := fun _ => rfl
          ids_pos := Nat.one_pos }
  | step op hreach hbalanced hstep ih =>
      obtain ⟨hplaced, hheads, hsized⟩ := ih
      obtain ⟨hnext, hrunning, hiff⟩ := hplaced.step hheads hstep
      exact ⟨hnext, hrunning, (hiff hsized).mpr hbalanced⟩

theorem wellKept_iff {exited : List Nat} {s : Scheduler} (h : Placed exited s)
    (hheads : Heads s) : WellKept exited s ↔ Sized s := by
  constructor
  · exact fun hkept => ⟨hkept.size1, hkept.size2⟩
  · rintro ⟨hfirst, hsecond⟩
    refine ⟨hfirst, hsecond, ?_, ?_⟩
    · intro t thread hthread hnot
      have hmem := (h.ready_iff t).mpr ⟨by rw [hthread]; nofun, hnot⟩
      exact List.count_eq_one_of_mem h.distinct hmem
    · intro c valuePtr hc
      obtain ⟨next, switch, hexit, htakes, -⟩ := h.exit hheads hc valuePtr
      exact ⟨next, switch, hexit, htakes⟩

/-- After balanced cycles the bookkeeping is right, and the next operation keeps it
so exactly when it is not a cycle over queues of different lengths. -/
theorem maintenance_keeps_iff {exited : List Nat} {s : Scheduler}
    (h : Reachable exited s) : WellKept exited s ∧ ∀ op next, step s op = some next →
      (WellKept (op.exits s exited) next ↔ op.Balanced s) := by
  obtain ⟨hplaced, hheads, hsized⟩ := h.placed
  refine ⟨(wellKept_iff hplaced hheads).mpr hsized, fun op next hstep => ?_⟩
  obtain ⟨hnext, hrunning, hiff⟩ := hplaced.step hheads hstep
  exact (wellKept_iff hnext hrunning).trans (hiff hsized)

/-- A cycle between two calls, with a thread in each queue. -/
theorem maintenance_keeps_iff_create : ∃ first second next,
    step initial (.create 5 7) = some first ∧ step first .yield = some second ∧
      second.queuePriority1.tail.length = 1 ∧ second.queuePriority2.tail.length = 1 ∧
        step second .maintenanceCycle = some next ∧ WellKept [] next := by
  refine ⟨_, _, _, rfl, rfl, rfl, rfl, rfl, ?_⟩
  have hreachable := (Reachable.initial.step (.create 5 7) nofun rfl).step .yield nofun rfl
  exact ((maintenance_keeps_iff hreachable).2 .maintenanceCycle _ rfl).mpr fun _ => rfl

/-- The first `my_pthread_create` leaves both nodes in `queue_priority_1`. -/
theorem maintenance_parts_size : ∃ s next, Reachable [] s ∧
    step s .maintenanceCycle = some next ∧ ¬ WellKept [] next := by
  refine ⟨_, _, .step (.create 5 7) .initial nofun rfl, rfl, fun hkept => ?_⟩
  have hsize : (2 : Int) = (0 : Nat) := hkept.size1
  cases hsize

end RutgersOS.Assignment1.Maintenance
