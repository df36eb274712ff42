import RutgersOS.Assignment2.Turns

namespace RutgersOS.Assignment2.Scheduler

structure History where
  stale : Nat → Int
  exits : List (Nat × Int)

namespace History

def record (history : History) (s : Scheduler) : Op → History
  | .create stale =>
      { history with stale := Function.update history.stale s.threadIDS stale }
  | .exit valuePtr =>
      match s.current with
      | some current => { history with exits := (current, valuePtr) :: history.exits }
      | none => history
  | _ => history

theorem record_exit {history : History} {s : Scheduler} {c : Nat}
    (h : s.current = some c) (valuePtr : Int) : history.record s (.exit valuePtr) =
      { history with exits := (c, valuePtr) :: history.exits } := by
  simp only [record, h]

def Exited (history : History) (thread : Nat) (valuePtr : Int) : Prop :=
  (thread, valuePtr) ∈ history.exits ∧
    ∀ other, (thread, other) ∈ history.exits → other = valuePtr

def Delivers (history : History) (thread : Nat) (value : Int) : Prop :=
  ∃ valuePtr, history.Exited thread valuePtr ∧ value = valuePtr

/-- The thread passed a pointer other than NULL, or its struct held NULL anyway. -/
def Stored (history : History) (thread : Nat) : Prop :=
  ∀ valuePtr, (thread, valuePtr) ∈ history.exits →
    valuePtr ≠ 0 ∨ history.stale thread = 0

end History

/-- The runs from `initializeScheduler` in which threads that have not exited
call `my_pthread_create`, `my_pthread_yield`, `my_pthread_exit` and
`my_pthread_join`, the last one round at a time. -/
inductive Runs : History → Scheduler → Prop
  | start (garbage : Int) :
      Runs ⟨fun _ => garbage, []⟩ (initializeScheduler garbage)
  | step {history : History} {s next : Scheduler} (op : Op) :
      Runs history s → s.current ≠ none → s.step op = some next →
        Runs (history.record s op) next

structure Kept (history : History) (s : Scheduler) : Prop where
  created : ∀ t thread, s.threads t = some thread → t < s.threadIDS
  active : ∀ t value, s.threads t = some ⟨.active, value⟩ →
    value = history.stale t ∧ ∀ valuePtr, (t, valuePtr) ∉ history.exits
  completed : ∀ t value, s.threads t = some ⟨.completed, value⟩ →
    ∃ valuePtr, history.Exited t valuePtr ∧
      value = if valuePtr ≠ 0 then valuePtr else history.stale t
  exited : ∀ t valuePtr, (t, valuePtr) ∈ history.exits → t < s.threadIDS

theorem Kept.congr {history : History} {s next : Scheduler} (h : Kept history s)
    (hthreads : next.threads = s.threads) (hids : next.threadIDS = s.threadIDS) :
    Kept history next where
  created t thread hthread := by
    rw [hids]
    exact h.created t thread (hthreads ▸ hthread)
  active t value hthread := h.active t value (hthreads ▸ hthread)
  completed t value hthread := h.completed t value (hthreads ▸ hthread)
  exited t valuePtr hexit := by
    rw [hids]
    exact h.exited t valuePtr hexit

theorem initializeScheduler_threads {garbage : Int} {t : Nat} {thread : Thread}
    (h : (initializeScheduler garbage).threads t = some thread) :
    t = 0 ∧ thread = ⟨.active, garbage⟩ := by
  change Function.update (fun _ => none) 0 (some (Thread.mk .active garbage)) t = _ at h
  rcases Classical.em (t = 0) with rfl | hne
  · rw [Function.update_self] at h
    exact ⟨rfl, (Option.some.inj h).symm⟩
  · rw [Function.update_of_ne hne] at h
    cases h

theorem Kept.start (garbage : Int) :
    Kept ⟨fun _ => garbage, []⟩ (initializeScheduler garbage) where
  created t thread hthread := by
    obtain ⟨rfl, -⟩ := initializeScheduler_threads hthread
    exact Nat.one_pos
  active t value hthread := by
    obtain ⟨-, hvalue⟩ := initializeScheduler_threads hthread
    exact ⟨congrArg Thread.returnValue hvalue, fun _ => List.not_mem_nil⟩
  completed t value hthread := by
    obtain ⟨-, hvalue⟩ := initializeScheduler_threads hthread
    cases congrArg Thread.state hvalue
  exited := nofun

theorem Kept.create {history : History} {s next : Scheduler} (h : Kept history s)
    (stale : Int) (hids : next.threadIDS = s.threadIDS + 1)
    (hthreads : next.threads =
      Function.update s.threads s.threadIDS (some ⟨.active, stale⟩)) :
    Kept (history.record s (.create stale)) next := by
  have hold : ∀ t thread, t ≠ s.threadIDS → next.threads t = some thread →
      s.threads t = some thread := by
    intro t thread hne hthread
    rwa [hthreads, Function.update_of_ne hne] at hthread
  have hstale : ∀ t, t ≠ s.threadIDS →
      (history.record s (.create stale)).stale t = history.stale t :=
    fun t hne => Function.update_of_ne hne _ _
  refine { created := ?_, active := ?_, completed := ?_, exited := ?_ }
  · intro t thread hthread
    rw [hids]
    rcases Classical.em (t = s.threadIDS) with rfl | hne
    · exact Nat.lt_succ_self _
    · exact Nat.lt_succ_of_lt (h.created t thread (hold t thread hne hthread))
  · intro t value hthread
    rcases Classical.em (t = s.threadIDS) with rfl | hne
    · rw [hthreads, Function.update_self] at hthread
      cases hthread
      have hself : (history.record s (.create stale)).stale s.threadIDS = stale :=
        Function.update_self _ _ _
      refine ⟨hself.symm, fun valuePtr hexit => ?_⟩
      exact Nat.lt_irrefl _ (h.exited _ valuePtr hexit)
    · rw [hstale t hne]
      exact h.active t value (hold t _ hne hthread)
  · intro t value hthread
    rcases Classical.em (t = s.threadIDS) with rfl | hne
    · rw [hthreads, Function.update_self] at hthread
      cases hthread
    · rw [hstale t hne]
      exact h.completed t value (hold t _ hne hthread)
  · intro t valuePtr hexit
    rw [hids]
    exact Nat.lt_succ_of_lt (h.exited t valuePtr hexit)

theorem Kept.exit {history : History} {s next : Scheduler} {c : Nat}
    (h : Kept history s) (hc : s.current = some c) (valuePtr : Int) {value : Int}
    (hactive : s.threads c = some ⟨.active, value⟩)
    (hids : next.threadIDS = s.threadIDS)
    (hthreads : next.threads = Function.update s.threads c
      (some ⟨.completed, if valuePtr ≠ 0 then valuePtr else value⟩)) :
    Kept (history.record s (.exit valuePtr)) next := by
  have hold : ∀ t thread, t ≠ c → next.threads t = some thread →
      s.threads t = some thread := by
    intro t thread hne hthread
    rwa [hthreads, Function.update_of_ne hne] at hthread
  have hexits : ∀ t other, t ≠ c → (t, other) ∈ (c, valuePtr) :: history.exits →
      (t, other) ∈ history.exits := by
    intro t other hne hexit
    rcases List.mem_cons.mp hexit with heq | hexit
    · exact absurd (congrArg Prod.fst heq) hne
    · exact hexit
  obtain ⟨hstale, hnever⟩ := h.active c value hactive
  rw [History.record_exit hc]
  refine { created := ?_, active := ?_, completed := ?_, exited := ?_ }
  · intro t thread hthread
    rw [hids]
    rcases Classical.em (t = c) with rfl | hne
    · exact h.created t _ hactive
    · exact h.created t thread (hold t thread hne hthread)
  · intro t other hthread
    rcases Classical.em (t = c) with rfl | hne
    · rw [hthreads, Function.update_self] at hthread
      cases hthread
    · obtain ⟨hvalue, hnone⟩ := h.active t other (hold t _ hne hthread)
      exact ⟨hvalue, fun argument hexit => hnone argument (hexits t argument hne hexit)⟩
  · intro t other hthread
    rcases Classical.em (t = c) with rfl | hne
    · rw [hthreads, Function.update_self] at hthread
      cases hthread
      refine ⟨valuePtr, ⟨List.mem_cons_self, ?_⟩, by rw [hstale]⟩
      intro argument hexit
      rcases List.mem_cons.mp hexit with heq | hexit
      · exact congrArg Prod.snd heq
      · exact absurd hexit (hnever argument)
    · obtain ⟨argument, ⟨hexit, honly⟩, hvalue⟩ :=
        h.completed t other (hold t _ hne hthread)
      exact ⟨argument, ⟨List.mem_cons_of_mem _ hexit, fun another hanother =>
        honly another (hexits t another hne hanother)⟩, hvalue⟩
  · intro t argument hexit
    rw [hids]
    rcases List.mem_cons.mp hexit with heq | hexit
    · obtain ⟨rfl, -⟩ := Prod.mk.inj heq
      exact h.created _ _ hactive
    · exact h.exited t argument hexit

theorem Kept.release {history : History} {s : Scheduler} (h : Kept history s)
    (t : Nat) : Kept history (s.setThread t none) := by
  have hold : ∀ u thread, (s.setThread t none).threads u = some thread →
      s.threads u = some thread := by
    intro u thread hthread
    change Function.update s.threads t none u = some thread at hthread
    rcases Classical.em (u = t) with rfl | hne
    · rw [Function.update_self] at hthread
      cases hthread
    · rwa [Function.update_of_ne hne] at hthread
  exact
    { created := fun u thread hthread => h.created u thread (hold u thread hthread)
      active := fun u value hthread => h.active u value (hold u _ hthread)
      completed := fun u value hthread => h.completed u value (hold u _ hthread)
      exited := h.exited }

/-- The step lemma: what a call of the running thread does to its struct and to
those of the others. -/
theorem Kept.step {history : History} {s next : Scheduler} (h : Kept history s)
    (hsteady : s.Steady) (hrunning : s.current ≠ none) {op : Op}
    (hstep : s.step op = some next) :
    next.Steady ∧ (next.current ≠ none → Kept (history.record s op) next) := by
  obtain ⟨c, hc⟩ := Option.ne_none_iff_exists'.mp hrunning
  cases op with
  | create stale =>
      obtain ⟨created, henqueue, hpending, -, hids, hthreads⟩ :=
        hsteady.enqueueThread hc stale
      obtain ⟨last, switch, hyield, hyields, hlast⟩ := hpending.yields
      simp only [Scheduler.step, myPthreadCreate, henqueue, Option.bind_eq_bind,
        Option.bind_some, hyield, Option.map_some, Option.some.injEq] at hstep
      subst hstep
      exact ⟨hlast, fun _ => h.create stale (hyields.threadIDS.trans hids)
        (hyields.threads.trans hthreads)⟩
  | yield =>
      obtain ⟨last, switch, hyield, hyields, hlast⟩ := hsteady.pending.yields
      simp only [Scheduler.step, hyield, Option.map_some, Option.some.injEq] at hstep
      subst hstep
      exact ⟨hlast, fun _ => h.congr hyields.threads hyields.threadIDS⟩
  | exit valuePtr =>
      obtain ⟨removed, hremove, hpending, hnone, hids, hthreads⟩ :=
        hsteady.removeCurrent hc valuePtr
      obtain ⟨last, switch, hyield, hyields, hlast⟩ := hpending.yields
      simp only [Scheduler.step, myPthreadExit, hremove, Option.bind_eq_bind,
        Option.bind_some, hyield, Option.map_some, Option.some.injEq] at hstep
      subst hstep
      refine ⟨hlast, fun hcurrent => ?_⟩
      rcases hthreads with ⟨-, -, hfresh, -⟩ | ⟨value, hactive, hthreads⟩
      · have hstay := hfresh.yields
        rw [hyield] at hstay
        obtain ⟨rfl, -⟩ := Prod.mk.inj (Option.some.inj hstay)
        exact absurd hnone hcurrent
      · exact h.exit hc valuePtr hactive (hyields.threadIDS.trans hids)
          (hyields.threads.trans hthreads)
  | join t =>
      cases hthread : s.threads t with
      | none => simp [Scheduler.step, myPthreadJoin, hthread] at hstep
      | some struct =>
          rcases Classical.em (struct.state = .completed) with hcompleted | hwaiting
          · simp [Scheduler.step, myPthreadJoin, hthread, hcompleted] at hstep
            subst hstep
            exact ⟨(hsteady.release hthread hcompleted).1, fun _ => h.release t⟩
          · obtain ⟨last, switch, hyield, hyields, hlast⟩ := hsteady.pending.yields
            simp [Scheduler.step, myPthreadJoin, hthread, hwaiting, hyield] at hstep
            subst hstep
            exact ⟨hlast, fun _ => h.congr hyields.threads hyields.threadIDS⟩

/-- The run lemma. -/
theorem Runs.kept {history : History} {s : Scheduler} (h : Runs history s) :
    s.Steady ∧ (s.current ≠ none → Kept history s) := by
  induction h with
  | start garbage =>
      exact ⟨Or.inl ⟨garbage, Or.inl rfl⟩, fun _ => .start garbage⟩
  | step op hruns hrunning hstep ih => exact (ih.2 hrunning).step ih.1 hrunning hstep

/-- A join hands over a value only after the thread has exited. -/
theorem Runs.join_value {history : History} {s next : Scheduler} {t : Nat}
    {switch : Switch} {value : Int} (h : Runs history s) (hrunning : s.current ≠ none)
    (hjoin : s.myPthreadJoin t = some (next, switch, some value)) :
    ∃ valuePtr, history.Exited t valuePtr ∧
      value = if valuePtr ≠ 0 then valuePtr else history.stale t := by
  cases hthread : s.threads t with
  | none => simp [myPthreadJoin, hthread] at hjoin
  | some struct =>
      obtain ⟨state, returnValue⟩ := struct
      rcases Classical.em (state = .completed) with rfl | hwaiting
      · simp [myPthreadJoin, hthread] at hjoin
        obtain ⟨-, -, rfl⟩ := hjoin
        exact (h.kept.2 hrunning).completed t _ hthread
      · obtain ⟨last, other, hyield, -⟩ := h.kept.1.pending.yields
        simp [myPthreadJoin, hthread, hwaiting, hyield] at hjoin

/-- The value arrives unless `my_pthread_exit` was given NULL and the thread's
struct had been allocated over other bytes. -/
theorem join_delivers_iff {history : History} {s next : Scheduler} {t : Nat}
    {switch : Switch} {value : Int} (h : Runs history s) (hrunning : s.current ≠ none)
    (hjoin : s.myPthreadJoin t = some (next, switch, some value)) :
    history.Delivers t value ↔ history.Stored t := by
  obtain ⟨valuePtr, hexited, hvalue⟩ := h.join_value hrunning hjoin
  constructor
  · rintro ⟨argument, hargument, rfl⟩ other hother
    obtain rfl := hargument.2 other hother
    obtain rfl := hexited.2 other hother
    rcases Classical.em (other = 0) with rfl | hne
    · exact Or.inr (hvalue.trans (if_neg (not_not_intro rfl))).symm
    · exact Or.inl hne
  · intro hstored
    refine ⟨valuePtr, hexited, hvalue.trans ?_⟩
    rcases Classical.em (valuePtr = 0) with rfl | hne
    · rw [if_neg (not_not_intro rfl)]
      exact (hstored 0 hexited.1).resolve_left (not_not_intro rfl)
    · rw [if_pos hne]

def afterExit (stale valuePtr : Int) : Option Scheduler :=
  ((initializeScheduler 0).step (.create stale)).bind (step · (.exit valuePtr))

theorem runs_afterExit (stale valuePtr : Int) {s : Scheduler}
    (h : afterExit stale valuePtr = some s) :
    Runs ⟨Function.update (fun _ => 0) 1 stale, [(1, valuePtr)]⟩ s := by
  obtain ⟨created, hcreate, hexit⟩ := Option.bind_eq_some_iff.mp h
  have hcurrent : created.current = some 1 := by
    cases hcreate
    rfl
  have hrun := Runs.step _ (Runs.start 0) nofun hcreate
  have hexited := Runs.step _ hrun (by rw [hcurrent]; nofun) hexit
  rwa [History.record_exit hcurrent] at hexited

theorem join_delivers_iff_value : ∃ s next, afterExit 7 3 = some s ∧
    s.myPthreadJoin 1 = some (next, .stay, some 3) ∧
      History.Delivers ⟨Function.update (fun _ => 0) 1 7, [(1, 3)]⟩ 1 3 := by
  refine ⟨_, _, rfl, rfl, ?_⟩
  refine (join_delivers_iff (runs_afterExit 7 3 rfl) (Option.some_ne_none 0) rfl).mpr ?_
  intro valuePtr hexit
  obtain ⟨-, rfl⟩ := Prod.mk.inj (List.mem_singleton.mp hexit)
  exact Or.inl (by decide)

/-- `my_pthread_exit(NULL)` in a thread whose struct held 7. -/
theorem join_delivers_stale : ∃ history s next, Runs history s ∧ s.current = some 0 ∧
    history.exits = [(1, 0)] ∧ s.myPthreadJoin 1 = some (next, .stay, some 7) ∧
      ¬ history.Delivers 1 7 := by
  refine ⟨_, _, _, runs_afterExit 7 0 rfl, rfl, rfl, rfl, ?_⟩
  rintro ⟨valuePtr, ⟨hexit, -⟩, heq⟩
  obtain ⟨-, rfl⟩ := Prod.mk.inj (List.mem_singleton.mp hexit)
  cases heq

end RutgersOS.Assignment2.Scheduler
