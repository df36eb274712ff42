import RutgersOS.Assignment2.ReadyQueues

namespace RutgersOS.Assignment2.Scheduler

/-! What the other parts of the program need of the scheduler: which threads
exist, and who runs before and after a yield. -/

def Alive (s : Scheduler) (t : Nat) : Prop :=
  s.threads t ≠ none

inductive Hands (s next : Scheduler) : Switch → Prop
  | stay (hsame : next.current = s.current) : Hands s next .stay
  | resume {u : Nat} (hidle : s.current = none) (hnext : next.current = some u)
      (halive : s.Alive u) : Hands s next (.resume u)
  | swap {t u : Nat} (hcurrent : s.current = some t) (hgone : s.Alive t)
      (hnext : next.current = some u) (halive : s.Alive u) : Hands s next (.swap t u)

structure Yields (s next : Scheduler) (switch : Switch) : Prop where
  threads : next.threads = s.threads
  threadIDS : next.threadIDS = s.threadIDS
  hands : Hands s next switch

/-- Before the first `my_pthread_create` the main thread is in no queue. -/
def Fresh (s : Scheduler) : Prop :=
  ∃ garbage, s = initializeScheduler garbage ∨
    s = { initializeScheduler garbage with current := none }

def Steady (s : Scheduler) : Prop :=
  s.Fresh ∨ ∃ exited, Settled exited s

def Pending (s : Scheduler) : Prop :=
  s.Fresh ∨ ∃ exited, Consistent exited s ∧ ∀ c, s.current = some c → c ∈ s.ready

theorem Fresh.threads {s : Scheduler} (h : s.Fresh) : ∃ garbage,
    s.threads = Function.update (fun _ => none) 0 (some ⟨.active, garbage⟩) := by
  obtain ⟨garbage, rfl | rfl⟩ := h
  · exact ⟨garbage, rfl⟩
  · exact ⟨garbage, rfl⟩

theorem Steady.pending {s : Scheduler} (h : s.Steady) : s.Pending :=
  h.imp_right fun ⟨exited, hsettled⟩ =>
    ⟨exited, hsettled.consistent, hsettled.current_mem⟩

theorem Consistent.alive {exited : List Nat} {s : Scheduler}
    (h : Consistent exited s) {t : Nat} (ht : t ∈ s.ready) : s.Alive t := by
  obtain ⟨value, hactive⟩ := h.active t ht
  rw [Alive, hactive]
  nofun

theorem Consistent.yields {exited : List Nat} {s : Scheduler}
    (h : Consistent exited s) (hcurrent : ∀ c, s.current = some c → c ∈ s.ready) :
    ∃ next switch, s.myPthreadYield = some (next, switch) ∧ Yields s next switch ∧
      Settled exited next := by
  obtain ⟨next, switch, hyield, hsettled⟩ := yield_settled h hcurrent
  refine ⟨next, switch, hyield, ?_, hsettled⟩
  cases hnodes : s.nodes with
  | nil =>
      have hstay := yield_empty hnodes
      rw [hyield] at hstay
      obtain ⟨rfl, rfl⟩ := Prod.mk.inj (Option.some.inj hstay)
      exact ⟨rfl, rfl, .stay rfl⟩
  | cons node rest =>
      have hready : s.ready = node.thread :: rest.map Pthread.QueueNode.thread := by
        rw [ready, hnodes, List.map_cons]
      have hnode : s.Alive node.thread := h.alive (hready ▸ List.mem_cons_self)
      rcases Classical.em (s.current = some node.thread) with hhead | hother
      · obtain ⟨after, t, hrotate, hnext, hrotated⟩ :=
          yield_rotate hnodes hhead h.node_active
        rw [hyield] at hrotate
        obtain ⟨rfl, rfl⟩ := Prod.mk.inj (Option.some.inj hrotate)
        refine ⟨hrotated.threads, hrotated.threadIDS, .swap hhead hnode hnext ?_⟩
        have halive := hsettled.consistent.alive (hsettled.current_mem t hnext)
        rwa [Alive, hrotated.threads] at halive
      · have hhead := yield_to_head hnodes hother
        rw [hyield] at hhead
        obtain ⟨rfl, rfl⟩ := Prod.mk.inj (Option.some.inj hhead)
        refine ⟨rfl, rfl, ?_⟩
        cases hc : s.current with
        | none => exact .resume hc rfl hnode
        | some temp => exact .swap hc (h.alive (hcurrent temp hc)) rfl hnode

theorem Fresh.yields {s : Scheduler} (h : s.Fresh) :
    s.myPthreadYield = some (s, .stay) := by
  obtain ⟨garbage, rfl | rfl⟩ := h
  · rfl
  · rfl

theorem Pending.yields {s : Scheduler} (h : s.Pending) :
    ∃ next switch, s.myPthreadYield = some (next, switch) ∧ Yields s next switch ∧
      next.Steady := by
  rcases h with hfresh | ⟨exited, hconsistent, hcurrent⟩
  · exact ⟨s, .stay, hfresh.yields, ⟨rfl, rfl, .stay rfl⟩, Or.inl hfresh⟩
  · obtain ⟨next, switch, hyield, hyields, hsettled⟩ := hconsistent.yields hcurrent
    exact ⟨next, switch, hyield, hyields, Or.inr ⟨exited, hsettled⟩⟩

theorem Steady.current_alive {s : Scheduler} (h : s.Steady) {c : Nat}
    (hc : s.current = some c) : s.Alive c := by
  rcases h with ⟨garbage, rfl | rfl⟩ | ⟨exited, hsettled⟩
  · obtain rfl := Option.some.inj hc
    nofun
  · cases hc
  · exact hsettled.consistent.alive (hsettled.current_mem c hc)

theorem Steady.enqueueThread {s : Scheduler} (h : s.Steady) {c : Nat}
    (hc : s.current = some c) (stale : Int) :
    ∃ next, s.enqueueThread stale = some next ∧ next.Pending ∧
      next.current = s.current ∧ next.threadIDS = s.threadIDS + 1 ∧
      next.threads = Function.update s.threads s.threadIDS (some ⟨.active, stale⟩) := by
  rcases h with ⟨garbage, rfl | rfl⟩ | ⟨exited, hsettled⟩
  · obtain ⟨created, henqueue, hconsistent, hcurrent, hmain, hids, hthreads⟩ :=
      initialize_enqueueThread garbage stale
    refine ⟨created, henqueue, Or.inr ⟨[], hconsistent, ?_⟩, hcurrent, hids, hthreads⟩
    intro t ht
    obtain rfl := Option.some.inj (hcurrent.symm.trans ht)
    exact hmain
  · cases hc
  · obtain ⟨next, henqueue, hconsistent, hcurrent, hready, hids, hthreads⟩ :=
      enqueueThread_consistent hsettled.consistent stale
    refine ⟨next, henqueue, Or.inr ⟨exited, hconsistent, ?_⟩, hcurrent, hids, hthreads⟩
    intro t ht
    rw [hcurrent] at ht
    exact hready.mem_iff.mpr (List.mem_cons_of_mem _ (hsettled.current_mem t ht))

theorem Steady.removeCurrent {s : Scheduler} (h : s.Steady) {c : Nat}
    (hc : s.current = some c) (valuePtr : Int) :
    ∃ next, s.removeCurrent valuePtr = some next ∧ next.Pending ∧
      next.current = none ∧ next.threadIDS = s.threadIDS ∧
      ((∃ garbage, s = initializeScheduler garbage ∧ next.Fresh ∧
          next.threads = s.threads) ∨
        ∃ value, s.threads c = some ⟨.active, value⟩ ∧
          next.threads = Function.update s.threads c
            (some ⟨.completed, if valuePtr ≠ 0 then valuePtr else value⟩)) := by
  rcases h with ⟨garbage, rfl | rfl⟩ | ⟨exited, hsettled⟩
  · have hfresh :
        Fresh { initializeScheduler garbage with current := none } :=
      ⟨garbage, Or.inr rfl⟩
    exact ⟨_, rfl, Or.inl hfresh, rfl, rfl, Or.inl ⟨garbage, rfl, hfresh, rfl⟩⟩
  · cases hc
  · obtain ⟨node, next, value, hremove, rfl, hnodes, hactive, hthreads, hnone, hids, hmain,
      hcounted1, hcounted2⟩ := removeCurrent_eq hsettled hc valuePtr
    have hready : s.ready = node.thread :: next.ready := by
      rw [ready, hnodes, List.map_cons, ready]
    have hconsistent := hsettled.consistent.remove hcounted1 hcounted2 hready rfl
      hthreads hids hmain
    refine ⟨next, hremove, Or.inr ⟨_, hconsistent, ?_⟩, hnone, hids,
      Or.inr ⟨value, hactive, hthreads⟩⟩
    intro t ht
    rw [hnone] at ht
    cases ht

theorem Steady.release {s : Scheduler} (h : s.Steady) {t : Nat} {struct : Thread}
    (hthread : s.threads t = some struct) (hcompleted : struct.state = .completed) :
    (s.setThread t none).Steady ∧ s.current ≠ some t := by
  rcases h with hfresh | ⟨exited, hsettled⟩
  · obtain ⟨garbage, hthreads⟩ := hfresh.threads
    rw [hthreads] at hthread
    rcases Classical.em (t = 0) with rfl | hne
    · obtain rfl := Option.some.inj hthread
      cases hcompleted
    · rw [Function.update_of_ne hne] at hthread
      cases hthread
  · obtain ⟨next, switch, value, hjoin, hnext⟩ := join_settled hsettled hthread
    have hreleased : s.myPthreadJoin t =
        some (s.setThread t none, .stay, some struct.returnValue) := by
      simp [myPthreadJoin, hthread, hcompleted]
    rw [hjoin] at hreleased
    obtain ⟨rfl, -⟩ := Prod.mk.inj (Option.some.inj hreleased)
    refine ⟨Or.inr ⟨exited, hnext⟩, fun hc => ?_⟩
    obtain ⟨value, hactive⟩ :=
      hsettled.consistent.active t (hsettled.current_mem t hc)
    rw [hthread] at hactive
    rw [Option.some.inj hactive] at hcompleted
    cases hcompleted

section Calls

variable {exited : List Nat} {s next : Scheduler} {c : Nat}

theorem Settled.steady (h : Settled exited s) : s.Steady :=
  Or.inr ⟨exited, h⟩

theorem Steady.create_threads (h : s.Steady) (hc : s.current = some c) {stale : Int}
    (hstep : s.step (.create stale) = some next) :
    next.threads = Function.update s.threads s.threadIDS (some ⟨.active, stale⟩) ∧
      next.threadIDS = s.threadIDS + 1 := by
  obtain ⟨created, henqueue, hpending, -, hids, hthreads⟩ :=
    h.enqueueThread hc stale
  obtain ⟨last, switch, hyield, hyields, -⟩ := hpending.yields
  rw [step, myPthreadCreate, henqueue, Option.bind_eq_bind, Option.bind_some, hyield] at hstep
  obtain rfl := Option.some.inj hstep
  exact ⟨hyields.threads.trans hthreads, hyields.threadIDS.trans hids⟩

theorem Settled.yield_threads (h : Settled exited s) {switch : Switch}
    (hyield : s.myPthreadYield = some (next, switch)) :
    next.threads = s.threads ∧ next.threadIDS = s.threadIDS := by
  obtain ⟨last, other, hlast, hyields, -⟩ := h.steady.pending.yields
  obtain ⟨rfl, -⟩ := Prod.mk.inj (Option.some.inj (hlast.symm.trans hyield))
  exact ⟨hyields.threads, hyields.threadIDS⟩

theorem Settled.exit_threads (h : Settled exited s) (hc : s.current = some c) {valuePtr : Int}
    (hstep : s.step (.exit valuePtr) = some next) :
    (∃ value, s.threads c = some ⟨.active, value⟩ ∧
      next.threads = Function.update s.threads c
        (some ⟨.completed, if valuePtr ≠ 0 then valuePtr else value⟩)) ∧
      next.threadIDS = s.threadIDS := by
  obtain ⟨node, removed, value, hremove, rfl, hnodes, hactive, hthreads, hnone, hids, hmain,
    hcounted1, hcounted2⟩ := removeCurrent_eq h hc valuePtr
  have hready : s.ready = node.thread :: removed.ready := by
    rw [ready, hnodes, List.map_cons, ready]
  have hconsistent := h.consistent.remove hcounted1 hcounted2 hready rfl hthreads hids hmain
  have hidle : ∀ t, removed.current = some t → t ∈ removed.ready := by
    intro t ht
    rw [hnone] at ht
    cases ht
  obtain ⟨last, switch, hyield, hyields, -⟩ := hconsistent.yields hidle
  rw [step, myPthreadExit, hremove, Option.bind_eq_bind, Option.bind_some, hyield] at hstep
  obtain rfl := Option.some.inj hstep
  exact ⟨⟨value, hactive, hyields.threads.trans hthreads⟩, hyields.threadIDS.trans hids⟩

end Calls

end RutgersOS.Assignment2.Scheduler
