import Mathlib.Data.Set.Card
import Mathlib.Logic.Function.Basic
import RutgersOS.Mutex.FifoLock

namespace RutgersOS.Mutex

/-! The ticket mutex of `my_pthread.c` (the same code in Assignment1 and
Assignment2) under any interleaving of its memory accesses. -/

structure MyPthreadMutex where
  ticket : BitVec 32
  turn : BitVec 32

def myPthreadMutexInit (mutex : MyPthreadMutex) : MyPthreadMutex :=
  { mutex with ticket := 0, turn := 0 }

/-- `waiting` holds the local `myturn`, `unlocking` the value of `turn` that
`my_pthread_mutex_unlock` has read and not yet written back. -/
inductive Phase where
  | idle
  | waiting (myturn : BitVec 32)
  | inside
  | unlocking (turn : BitVec 32)

structure State (Tid : Type u) where
  mutex : MyPthreadMutex
  phase : Tid → Phase

/-- The atomic accesses: the `__sync_fetch_and_add` and one round of the `while`
of `my_pthread_mutex_lock`, the load and the store of `my_pthread_mutex_unlock`. -/
inductive Action (Tid : Type u) where
  | fetchAndAdd (t : Tid)
  | testTurn (t : Tid)
  | readTurn (t : Tid)
  | writeTurn (t : Tid)

namespace State

variable {Tid : Type u}

def init (mutex : MyPthreadMutex) : State Tid where
  mutex := myPthreadMutexInit mutex
  phase _ := .idle

/-- The thread is between the return of its lock call and the end of its
unlock call. -/
def Inside (s : State Tid) (t : Tid) : Prop :=
  s.phase t = .inside ∨ ∃ turn, s.phase t = .unlocking turn

noncomputable def outstanding (s : State Tid) : Nat :=
  Set.ncard {t | s.phase t ≠ .idle}

variable [DecidableEq Tid]

def setPhase (s : State Tid) (t : Tid) (phase : Phase) : State Tid :=
  { s with phase := Function.update s.phase t phase }

@[simp] theorem setPhase_mutex (s : State Tid) (t : Tid) (phase : Phase) :
    (s.setPhase t phase).mutex = s.mutex :=
  rfl

@[simp] theorem setPhase_self (s : State Tid) (t : Tid) (phase : Phase) :
    (s.setPhase t phase).phase t = phase :=
  Function.update_self _ _ _

theorem setPhase_of_ne (s : State Tid) {t u : Tid} (h : u ≠ t)
    (phase : Phase) : (s.setPhase t phase).phase u = s.phase u :=
  Function.update_of_ne h _ _

/-- `none` where the thread is not at that access. -/
def step (s : State Tid) : Action Tid → Option (State Tid)
  | .fetchAndAdd t =>
      match s.phase t with
      | .idle =>
          some
            ({ s with mutex.ticket := s.mutex.ticket + 1 }.setPhase t
              (.waiting s.mutex.ticket))
      | _ => none
  | .testTurn t =>
      match s.phase t with
      | .waiting myturn =>
          if s.mutex.turn ≠ myturn then some s else some (s.setPhase t .inside)
      | _ => none
  | .readTurn t =>
      match s.phase t with
      | .inside => some (s.setPhase t (.unlocking s.mutex.turn))
      | _ => none
  | .writeTurn t =>
      match s.phase t with
      | .unlocking turn =>
          some ({ s with mutex.turn := turn + 1 }.setPhase t .idle)
      | _ => none

def run (s : State Tid) : List (Action Tid) → Option (State Tid)
  | [] => some s
  | action :: actions => (s.step action).bind fun next => next.run actions

def entrance (next : State Tid) : Action Tid → List Tid
  | .testTurn t =>
      match next.phase t with
      | .inside => [t]
      | _ => []
  | _ => []

def entrances (s : State Tid) : List (Action Tid) → List Tid
  | [] => []
  | action :: actions =>
      match s.step action with
      | none => []
      | some next => next.entrance action ++ next.entrances actions

theorem step_fetchAndAdd {s next : State Tid} {t : Tid}
    (h : s.step (.fetchAndAdd t) = some next) :
    s.phase t = .idle ∧
      next = { s with mutex.ticket := s.mutex.ticket + 1 }.setPhase t
        (.waiting s.mutex.ticket) := by
  unfold step at h
  cases hphase : s.phase t with
  | idle =>
      simp only [hphase] at h
      exact ⟨rfl, (Option.some.inj h).symm⟩
  | waiting myturn => simp [hphase] at h
  | inside => simp [hphase] at h
  | unlocking turn => simp [hphase] at h

theorem step_testTurn {s next : State Tid} {t : Tid}
    (h : s.step (.testTurn t) = some next) :
    ∃ myturn, s.phase t = .waiting myturn ∧
      (s.mutex.turn ≠ myturn ∧ next = s ∨
        s.mutex.turn = myturn ∧ next = s.setPhase t .inside) := by
  unfold step at h
  cases hphase : s.phase t with
  | idle => simp [hphase] at h
  | waiting myturn =>
      simp only [hphase] at h
      refine ⟨myturn, rfl, ?_⟩
      split at h
      · next hne => exact Or.inl ⟨hne, (Option.some.inj h).symm⟩
      · next heq =>
          exact Or.inr ⟨not_not.mp heq, (Option.some.inj h).symm⟩
  | inside => simp [hphase] at h
  | unlocking turn => simp [hphase] at h

theorem step_readTurn {s next : State Tid} {t : Tid}
    (h : s.step (.readTurn t) = some next) :
    s.phase t = .inside ∧
      next = s.setPhase t (.unlocking s.mutex.turn) := by
  unfold step at h
  cases hphase : s.phase t with
  | idle => simp [hphase] at h
  | waiting myturn => simp [hphase] at h
  | inside =>
      simp only [hphase] at h
      exact ⟨rfl, (Option.some.inj h).symm⟩
  | unlocking turn => simp [hphase] at h

theorem step_writeTurn {s next : State Tid} {t : Tid}
    (h : s.step (.writeTurn t) = some next) :
    ∃ turn, s.phase t = .unlocking turn ∧
      next = { s with mutex.turn := turn + 1 }.setPhase t .idle := by
  unfold step at h
  cases hphase : s.phase t with
  | idle => simp [hphase] at h
  | waiting myturn => simp [hphase] at h
  | inside => simp [hphase] at h
  | unlocking turn =>
      simp only [hphase] at h
      exact ⟨turn, rfl, (Option.some.inj h).symm⟩

end State

/-! The mutex simulates the abstract lock: a ticket is the index of an arrival
modulo `2 ^ 32`, and `turn` counts the departures. -/

structure Represents (s : State Tid) (lock : FifoLock Tid) : Prop where
  ticket : s.mutex.ticket = BitVec.ofNat 32 lock.arrived.length
  turn : s.mutex.turn = BitVec.ofNat 32 lock.departed
  waiting : ∀ i t, lock.WaitsAt i t → s.phase t = .waiting (BitVec.ofNat 32 i)
  inside : ∀ t, lock.Holder t →
    s.phase t = .inside ∨ s.phase t = .unlocking s.mutex.turn
  idle : ∀ t, t ∉ lock.present → s.phase t = .idle

theorem ofNat_succ (n : Nat) :
    BitVec.ofNat 32 n + 1 = BitVec.ofNat 32 (n + 1) :=
  (BitVec.ofNat_add n 1).symm

theorem init_represents (mutex : MyPthreadMutex) :
    Represents (State.init mutex : State Tid) FifoLock.empty where
  ticket := rfl
  turn := rfl
  waiting i t h := by cases h.2
  inside t h := by cases h.2
  idle t _ := rfl

namespace Represents

variable {Tid : Type u} {s next : State Tid} {lock : FifoLock Tid}

theorem present_iff (h : Represents s lock) (t : Tid) :
    s.phase t ≠ .idle ↔ t ∈ lock.present := by
  constructor
  · intro hphase
    apply Classical.byContradiction
    intro habsent
    exact hphase (h.idle t habsent)
  · intro hpresent
    rcases FifoLock.holder_or_waitsAt hpresent with hholder | ⟨i, hwaits⟩
    · rcases h.inside t hholder with hphase | hphase
      · simp [hphase]
      · simp [hphase]
    · simp [h.waiting i t hwaits]

theorem outstanding_eq (h : Represents s lock) :
    s.outstanding = lock.present.length := by
  classical
  have hset : {t | s.phase t ≠ .idle} = (lock.present.toFinset : Set Tid) := by
    ext t
    rw [List.coe_toFinset]
    exact h.present_iff t
  rw [State.outstanding, hset, Set.ncard_coe_finset]
  exact List.toFinset_card_of_nodup lock.distinct

theorem holder_of_inside (h : Represents s lock) {t : Tid}
    (hinside : s.Inside t) : lock.Holder t := by
  have hpresent : t ∈ lock.present := by
    apply (h.present_iff t).mp
    rcases hinside with hphase | ⟨turn, hphase⟩
    · simp [hphase]
    · simp [hphase]
  rcases FifoLock.holder_or_waitsAt hpresent with hholder | ⟨i, hwaits⟩
  · exact hholder
  · have hphase := h.waiting i t hwaits
    rcases hinside with hinside | ⟨turn, hinside⟩
    · rw [hinside] at hphase
      cases hphase
    · rw [hinside] at hphase
      cases hphase

/-- Fewer than `2 ^ 32` tickets are out, so equal words are equal indices. -/
theorem served_index (h : Represents s lock) (hfew : s.outstanding < 2 ^ 32)
    {i : Nat} {t : Tid} (hwaits : lock.WaitsAt i t)
    (hturn : s.mutex.turn = BitVec.ofNat 32 i) : i = lock.departed := by
  have hlength := lock.length_present
  have hdeparted := lock.departed_le
  have hlt := (List.getElem?_eq_some_iff.mp hwaits.2).1
  have hindex := hwaits.1
  rw [h.outstanding_eq] at hfew
  have hmod : lock.departed % 2 ^ 32 = i % 2 ^ 32 := by
    rw [← BitVec.toNat_ofNat, ← BitVec.toNat_ofNat, ← h.turn, hturn]
  omega

variable [DecidableEq Tid]

theorem arrive (h : Represents s lock) {t : Tid} (habsent : t ∉ lock.present) :
    Represents ({ s with mutex.ticket := s.mutex.ticket + 1 }.setPhase t
      (.waiting s.mutex.ticket)) (lock.arrive t habsent) where
  ticket := by
    change s.mutex.ticket + 1 = BitVec.ofNat 32 (lock.arrived ++ [t]).length
    rw [h.ticket, ofNat_succ, List.length_append]
    rfl
  turn := h.turn
  waiting i u hwaits := by
    rcases FifoLock.arrive_waitsAt hwaits with hold | ⟨rfl, rfl⟩
    · have hne : u ≠ t := fun heq => habsent (heq ▸ hold.present)
      exact (State.setPhase_of_ne _ hne _).trans (h.waiting i u hold)
    · rw [← h.ticket]
      exact State.setPhase_self _ _ _
  inside u hholder := by
    have hold := FifoLock.arrive_holder hholder
    have hne : u ≠ t := fun heq => habsent (heq ▸ hold.present)
    rw [State.setPhase_of_ne _ hne]
    exact h.inside u hold
  idle u hu := by
    rw [lock.present_arrive habsent, List.mem_append, not_or] at hu
    have hne : u ≠ t := fun heq => hu.2 (List.mem_singleton.mpr heq)
    exact (State.setPhase_of_ne _ hne _).trans (h.idle u hu.1)

theorem letIn (h : Represents s lock) {t : Tid}
    (hfree : lock.admitted = lock.departed)
    (hwaiting : lock.admitted < lock.arrived.length)
    (ht : lock.arrived[lock.admitted]? = some t) :
    Represents (s.setPhase t .inside) (lock.letIn hfree hwaiting) where
  ticket := h.ticket
  turn := h.turn
  waiting i u hwaits := by
    obtain ⟨hindex, hget⟩ := hwaits
    have hne : u ≠ t := by
      rintro rfl
      have hle : lock.admitted + 1 ≤ i := hindex
      have heq := FifoLock.index_unique (Nat.le_of_lt (by omega))
        (Nat.le_of_eq hfree.symm) hget ht
      omega
    exact (State.setPhase_of_ne _ hne _).trans
      (h.waiting i u ⟨Nat.le_of_succ_le hindex, hget⟩)
  inside u hholder := by
    have heq : u = t := by
      have hget := hholder.2
      change lock.arrived[lock.departed]? = some u at hget
      rw [← hfree, ht] at hget
      exact (Option.some.inj hget).symm
    subst heq
    exact Or.inl (State.setPhase_self _ _ _)
  idle u hu := by
    have hne : u ≠ t := by
      rintro rfl
      have hwaits : lock.WaitsAt lock.admitted u := ⟨Nat.le_refl _, ht⟩
      exact hu hwaits.present
    exact (State.setPhase_of_ne _ hne _).trans (h.idle u hu)

theorem read (h : Represents s lock) {t : Tid} (hholder : lock.Holder t) :
    Represents (s.setPhase t (.unlocking s.mutex.turn)) lock where
  ticket := h.ticket
  turn := h.turn
  waiting i u hwaits := by
    have hne := hwaits.ne_holder hholder
    exact (State.setPhase_of_ne _ hne _).trans (h.waiting i u hwaits)
  inside u hu := by
    obtain rfl := hu.unique hholder
    exact Or.inr (State.setPhase_self _ _ _)
  idle u hu := by
    have hne : u ≠ t := fun heq => hu (heq ▸ hholder.present)
    exact (State.setPhase_of_ne _ hne _).trans (h.idle u hu)

theorem depart (h : Represents s lock) {t : Tid} (hholder : lock.Holder t) :
    Represents ({ s with mutex.turn := s.mutex.turn + 1 }.setPhase t .idle)
      (lock.depart hholder.1) where
  ticket := h.ticket
  turn := by
    change s.mutex.turn + 1 = BitVec.ofNat 32 (lock.departed + 1)
    rw [h.turn, ofNat_succ]
  waiting i u hwaits := by
    have hwaits : lock.WaitsAt i u := hwaits
    have hne := hwaits.ne_holder hholder
    exact (State.setPhase_of_ne _ hne _).trans (h.waiting i u hwaits)
  inside u hu := by
    have hsingle := lock.single
    have hheld : lock.departed + 1 < lock.admitted := hu.1
    omega
  idle u hu := by
    rcases Classical.em (u = t) with rfl | hne
    · exact State.setPhase_self _ _ _
    · rw [State.setPhase_of_ne _ hne]
      apply h.idle
      intro hpresent
      apply hu
      have hhead : lock.present[0]? = some t := by
        rw [FifoLock.present, List.getElem?_drop]
        exact hholder.2
      rw [FifoLock.present_depart]
      cases hlist : lock.present with
      | nil => simp [hlist] at hhead
      | cons first rest =>
          rw [hlist] at hhead hpresent
          obtain rfl := Option.some.inj hhead
          exact (List.mem_cons.mp hpresent).resolve_left hne

end Represents

def Action.taker : Action Tid → List Tid
  | .fetchAndAdd t => [t]
  | _ => []

def Action.increments : Action Tid → Nat
  | .writeTurn _ => 1
  | _ => 0

def takers (actions : List (Action Tid)) : List Tid :=
  actions.flatMap Action.taker

def increments (actions : List (Action Tid)) : Nat :=
  (actions.map Action.increments).sum

/-- What one action and a state it leads to add to the history of the lock. -/
structure Advances (lock after : FifoLock Tid) (taken entered : List Tid)
    (left : Nat) : Prop where
  arrived : after.arrived = lock.arrived ++ taken
  admissions : after.admissions = lock.admissions ++ entered
  departed : after.departed = lock.departed + left

theorem Advances.refl (lock : FifoLock Tid) : Advances lock lock [] [] 0 where
  arrived := (List.append_nil _).symm
  admissions := (List.append_nil _).symm
  departed := rfl

theorem Advances.trans {lock middle after : FifoLock Tid}
    {taken taken' entered entered' : List Tid} {left left' : Nat}
    (first : Advances lock middle taken entered left)
    (second : Advances middle after taken' entered' left') :
    Advances lock after (taken ++ taken') (entered ++ entered')
      (left + left') where
  arrived := by
    rw [second.arrived, first.arrived, List.append_assoc]
  admissions := by
    rw [second.admissions, first.admissions, List.append_assoc]
  departed := by
    rw [second.departed, first.departed, Nat.add_assoc]

section Runs

variable {Tid : Type u} [DecidableEq Tid] {s next : State Tid}
  {lock : FifoLock Tid}

theorem step_advances (h : Represents s lock) (hfew : s.outstanding < 2 ^ 32)
    {action : Action Tid} (hstep : s.step action = some next) :
    ∃ after, Represents next after ∧
      Advances lock after action.taker (next.entrance action)
        action.increments := by
  cases action with
  | fetchAndAdd t =>
      obtain ⟨hidle, rfl⟩ := State.step_fetchAndAdd hstep
      have habsent : t ∉ lock.present := fun hpresent =>
        (h.present_iff t).mpr hpresent hidle
      refine ⟨_, h.arrive habsent, rfl, ?_, rfl⟩
      rw [FifoLock.admissions_arrive]
      exact (List.append_nil _).symm
  | testTurn t =>
      obtain ⟨myturn, hphase, hcase⟩ := State.step_testTurn hstep
      have hpresent : t ∈ lock.present := by
        apply (h.present_iff t).mp
        simp [hphase]
      have hwaits : ∃ i, lock.WaitsAt i t := by
        rcases FifoLock.holder_or_waitsAt hpresent with hholder | hwaits
        · rcases h.inside t hholder with hinside | hinside
          · rw [hphase] at hinside
            cases hinside
          · rw [hphase] at hinside
            cases hinside
        · exact hwaits
      obtain ⟨i, hwaits⟩ := hwaits
      have hmyturn : myturn = BitVec.ofNat 32 i := by
        have hwaiting := h.waiting i t hwaits
        rw [hphase] at hwaiting
        exact Phase.waiting.inj hwaiting
      rcases hcase with ⟨-, rfl⟩ | ⟨hturn, rfl⟩
      · -- the thread keeps spinning
        refine ⟨lock, h, ?_⟩
        simp only [Action.taker, State.entrance, Action.increments, hphase]
        exact Advances.refl lock
      · -- the turn of the oldest arrival
        have hindex := h.served_index hfew hwaits (hturn.trans hmyturn)
        subst hindex
        have hfree : lock.admitted = lock.departed :=
          Nat.le_antisymm hwaits.1 lock.departed_le
        have hget := hwaits.2
        rw [← hfree] at hget
        have hwaiting := (List.getElem?_eq_some_iff.mp hget).1
        refine ⟨_, h.letIn hfree hwaiting hget, (List.append_nil _).symm, ?_,
          rfl⟩
        rw [FifoLock.admissions_letIn lock hfree hwaiting hget]
        simp [State.entrance, State.setPhase]
  | readTurn t =>
      obtain ⟨hinside, rfl⟩ := State.step_readTurn hstep
      exact ⟨lock, h.read (h.holder_of_inside (Or.inl hinside)),
        Advances.refl lock⟩
  | writeTurn t =>
      obtain ⟨turn, hunlocking, rfl⟩ := State.step_writeTurn hstep
      have hholder := h.holder_of_inside (Or.inr ⟨turn, hunlocking⟩)
      have hturn : turn = s.mutex.turn := by
        rcases h.inside t hholder with hphase | hphase
        · rw [hunlocking] at hphase
          cases hphase
        · rw [hunlocking] at hphase
          exact Phase.unlocking.inj hphase
      subst hturn
      exact ⟨_, h.depart hholder, (List.append_nil _).symm,
        (List.append_nil _).symm, rfl⟩

/-- Fewer than `2 ^ 32` tickets are outstanding all along the run. -/
def FewTickets (s : State Tid) (actions : List (Action Tid)) : Prop :=
  ∀ before, before <+: actions → ∀ reached, s.run before = some reached →
    reached.outstanding < 2 ^ 32

theorem FewTickets.tail {action : Action Tid} {actions : List (Action Tid)}
    (h : FewTickets s (action :: actions)) (hstep : s.step action = some next) :
    FewTickets next actions := by
  intro before hfront reached hrun
  apply h (action :: before) ((List.prefix_cons_inj action).mpr hfront) reached
  rw [State.run, hstep]
  exact hrun

theorem run_advances {actions : List (Action Tid)} :
    ∀ {s next : State Tid} {lock : FifoLock Tid}, Represents s lock →
      FewTickets s actions → s.run actions = some next →
      ∃ after, Represents next after ∧
        Advances lock after (takers actions) (s.entrances actions)
          (increments actions) := by
  induction actions with
  | nil =>
      intro s next lock h _ hrun
      obtain rfl := Option.some.inj hrun
      exact ⟨lock, h, Advances.refl lock⟩
  | cons action actions ih =>
      intro s next lock h hfew hrun
      obtain ⟨middle, hstep, hrest⟩ := Option.bind_eq_some_iff.mp hrun
      obtain ⟨after, hmiddle, hfirst⟩ :=
        step_advances h (hfew [] (List.nil_prefix) s rfl) hstep
      obtain ⟨final, hfinal, hsecond⟩ := ih hmiddle (hfew.tail hstep) hrest
      refine ⟨final, hfinal, ?_⟩
      have hentrances : s.entrances (action :: actions) =
          middle.entrance action ++ middle.entrances actions := by
        rw [State.entrances, hstep]
      rw [hentrances]
      exact hfirst.trans hsecond

/-- At most one thread is inside, threads enter in the order of their tickets,
and `turn` has counted every unlock. -/
theorem ticket_mutex_fair (mutex : MyPthreadMutex)
    {actions : List (Action Tid)} {reached : State Tid}
    (hfew : FewTickets (State.init mutex) actions)
    (hrun : (State.init mutex).run actions = some reached) :
    (∀ t u, reached.Inside t → reached.Inside u → t = u) ∧
      (State.init mutex).entrances actions <+: takers actions ∧
      reached.mutex.turn = BitVec.ofNat 32 (increments actions) := by
  obtain ⟨after, hafter, hadvances⟩ :=
    run_advances (init_represents mutex) hfew hrun
  refine ⟨?_, ?_, ?_⟩
  · intro t u ht hu
    exact (hafter.holder_of_inside ht).unique (hafter.holder_of_inside hu)
  · have hfront := after.admissions_prefix
    rw [hadvances.admissions, hadvances.arrived] at hfront
    exact hfront
  · rw [hafter.turn, hadvances.departed]
    exact congrArg (BitVec.ofNat 32) (Nat.zero_add _)

end Runs

theorem fewTickets_bool (s : State Bool) (actions : List (Action Bool)) :
    FewTickets s actions := by
  intro before _ reached _
  have hle : reached.outstanding ≤ Set.ncard (Set.univ : Set Bool) :=
    Set.ncard_le_ncard (Set.subset_univ _) Set.finite_univ
  rw [Set.ncard_univ, Nat.card_eq_fintype_card, Fintype.card_bool] at hle
  omega

theorem ticket_mutex_fair_handover :
    ∃ reached, (State.init ⟨7, 3⟩).run
        [.fetchAndAdd true, .fetchAndAdd false, .testTurn false, .testTurn true,
          .readTurn true, .writeTurn true, .testTurn false] = some reached ∧
      (∀ t u, reached.Inside t → reached.Inside u → t = u) ∧
      reached.mutex.turn = 1#32 := by
  refine ⟨_, rfl, ?_⟩
  have hfair := ticket_mutex_fair ⟨7, 3⟩ (fewTickets_bool _ _) (rfl :
    (State.init ⟨7, 3⟩).run [.fetchAndAdd true, .fetchAndAdd false,
      .testTurn false, .testTurn true, .readTurn true, .writeTurn true,
      .testTurn false] = some _)
  exact ⟨hfair.1, hfair.2.2⟩

end RutgersOS.Mutex
