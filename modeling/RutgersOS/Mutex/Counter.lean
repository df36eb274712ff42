import Mathlib.Algebra.Order.BigOperators.Group.Finset
import Mathlib.Data.Fintype.Card
import RutgersOS.Fairness.Rounds
import RutgersOS.Mutex.TicketMutex

namespace RutgersOS.Mutex

/-! `counter` of `main.c`: any number of threads add to the global `c` under the
global `lock`, one atomic access after the other in any order. -/

inductive Line where
  | lock
  | load
  | increment
  | store
  | unlock
  | exited
  deriving DecidableEq

structure Locals where
  i : Nat
  temp : BitVec 32
  line : Line

structure Counter (Tid : Type u) where
  lock : State Tid
  c : BitVec 32
  locals : Tid → Locals

namespace Counter

variable {Tid : Type u}

/-- The threads before their loops, over whatever their `temp` holds. -/
def start (mutex : MyPthreadMutex) (stale : Tid → BitVec 32) : Counter Tid where
  lock := .init mutex
  c := 0
  locals t := ⟨0, stale t, .lock⟩

variable [DecidableEq Tid]

def setLocals (s : Counter Tid) (t : Tid) (locals : Locals) : Counter Tid :=
  { s with locals := Function.update s.locals t locals }

/-- The next access of a thread, where `iter` is `ITER`.  A thread that has called
`my_pthread_exit` has none. -/
def step (iter : Nat) (s : Counter Tid) (t : Tid) : Option (Counter Tid) :=
  let locals := s.locals t
  match locals.line with
  | .lock =>
      if locals.i < iter then
        match s.lock.phase t with
        | .idle => do
            let lock ← s.lock.step (.fetchAndAdd t)
            some { s with lock := lock }
        | _ => do
            let lock ← s.lock.step (.testTurn t)
            match lock.phase t with
            | .inside =>
                some ({ s with lock := lock }.setLocals t { locals with line := .load })
            | _ => some { s with lock := lock }
      else some (s.setLocals t { locals with line := .exited })
  | .load => some (s.setLocals t { locals with temp := s.c, line := .increment })
  | .increment =>
      some (s.setLocals t { locals with temp := locals.temp + 1, line := .store })
  | .store =>
      some ({ s with c := locals.temp }.setLocals t { locals with line := .unlock })
  | .unlock =>
      match s.lock.phase t with
      | .inside => do
          let lock ← s.lock.step (.readTurn t)
          some { s with lock := lock }
      | _ => do
          let lock ← s.lock.step (.writeTurn t)
          some
            ({ s with lock := lock }.setLocals t
              { locals with i := locals.i + 1, line := .lock })
  | .exited => some s

end Counter

/-- Where a thread is in the mutex at each of its lines, and what it has read of `c`. -/
def Locals.At (locals : Locals) (iter : Nat) (c : BitVec 32) (phase : Phase) : Prop :=
  match locals.line with
  | .lock =>
      phase = .idle ∧ locals.i ≤ iter ∨
        (∃ myturn, phase = .waiting myturn) ∧ locals.i < iter
  | .load => phase = .inside ∧ locals.i < iter
  | .increment => phase = .inside ∧ locals.i < iter ∧ locals.temp = c
  | .store => phase = .inside ∧ locals.i < iter ∧ locals.temp = c + 1
  | .unlock => (phase = .inside ∨ ∃ turn, phase = .unlocking turn) ∧ locals.i < iter
  | .exited => phase = .idle ∧ locals.i = iter

def Locals.stores (locals : Locals) : Nat :=
  if locals.line = .unlock then locals.i + 1 else locals.i

theorem Locals.At.outside {locals : Locals} {iter : Nat} {c c' : BitVec 32} {phase : Phase}
    (h : locals.At iter c phase) (houtside : phase ≠ .inside) :
    locals.At iter c' phase := by
  unfold Locals.At at h ⊢
  cases hline : locals.line with
  | lock => simpa only [hline] using h
  | load =>
      simp only [hline] at h
      exact absurd h.1 houtside
  | increment =>
      simp only [hline] at h
      exact absurd h.1 houtside
  | store =>
      simp only [hline] at h
      exact absurd h.1 houtside
  | unlock => simpa only [hline] using h
  | exited => simpa only [hline] using h

theorem few_outstanding [Fintype Tid] (hcard : Fintype.card Tid < 2 ^ 32) (s : State Tid) :
    s.outstanding < 2 ^ 32 := by
  have hle : s.outstanding ≤ Set.ncard (Set.univ : Set Tid) :=
    Set.ncard_le_ncard (Set.subset_univ _) Set.finite_univ
  rw [Set.ncard_univ, Nat.card_eq_fintype_card] at hle
  exact Nat.lt_of_le_of_lt hle hcard

namespace Counter

variable {Tid : Type u}

/-- `c` counts the stores, and no two threads are between their loads and stores. -/
structure Counts [Fintype Tid] (iter : Nat) (s : Counter Tid) : Prop where
  represents : ∃ lock, Represents s.lock lock
  places : ∀ t, (s.locals t).At iter s.c (s.lock.phase t)
  counted : s.c = BitVec.ofNat 32 (∑ t, (s.locals t).stores)

namespace Counts

variable [Fintype Tid] {iter : Nat} {s : Counter Tid}

theorem start (iter : Nat) (mutex : MyPthreadMutex) (stale : Tid → BitVec 32) :
    Counts iter (Counter.start mutex stale) where
  represents := ⟨_, init_represents mutex⟩
  places _ := Or.inl ⟨rfl, Nat.zero_le iter⟩
  counted := by
    have hzero : ∑ t, ((Counter.start mutex stale).locals t).stores = 0 :=
      Finset.sum_eq_zero fun _ _ => rfl
    rw [hzero]
    rfl

theorem exclusive (h : Counts iter s) {t u : Tid} (ht : s.lock.Inside t)
    (hu : s.lock.Inside u) : t = u := by
  obtain ⟨lock, hlock⟩ := h.represents
  exact (hlock.holder_of_inside ht).unique (hlock.holder_of_inside hu)

theorem unlocking_turn (h : Counts iter s) {t : Tid} {turn : BitVec 32}
    (ht : s.lock.phase t = .unlocking turn) : turn = s.lock.mutex.turn := by
  obtain ⟨lock, hlock⟩ := h.represents
  rcases hlock.inside t (hlock.holder_of_inside (Or.inr ⟨turn, ht⟩)) with hinside | hturn
  · rw [ht] at hinside
    cases hinside
  · rw [ht] at hturn
    exact Phase.unlocking.inj hturn

theorem stores_exited (h : Counts iter s) {t : Tid} (hexited : (s.locals t).line = .exited) :
    (s.locals t).stores = iter := by
  have hplace := h.places t
  unfold Locals.At at hplace
  simp only [hexited] at hplace
  rw [Locals.stores, if_neg (by rw [hexited]; decide), hplace.2]

end Counts

def remaining (iter : Nat) (s : Counter Tid) (t : Tid) : Nat :=
  let later := 7 * (iter - (s.locals t).i)
  match (s.locals t).line with
  | .lock =>
      match s.lock.phase t with
      | .idle => later + 1
      | _ => later
  | .load => later - 1
  | .increment => later - 2
  | .store => later - 3
  | .unlock =>
      match s.lock.phase t with
      | .inside => later - 4
      | _ => later - 5
  | .exited => 0

def work [Fintype Tid] (iter : Nat) (s : Counter Tid) : Nat :=
  ∑ t, s.remaining iter t

/-- The thread does not spin at its next turn. -/
def Ready (s : Counter Tid) (t : Tid) : Prop :=
  (s.locals t).line ≠ .exited ∧
    ∀ myturn, s.lock.phase t = .waiting myturn → s.lock.mutex.turn = myturn

def Exited (s : Counter Tid) : Prop :=
  ∀ t, (s.locals t).line = .exited

theorem work_start [Fintype Tid] (iter : Nat) (mutex : MyPthreadMutex)
    (stale : Tid → BitVec 32) :
    (start mutex stale).work iter = Fintype.card Tid * (7 * iter + 1) :=
  Finset.sum_const_nat fun _ _ => rfl

theorem Counts.c_exited [Fintype Tid] {iter : Nat} {s : Counter Tid} (h : Counts iter s)
    (hexited : s.Exited) :
    s.c = BitVec.ofNat 32 (iter * Fintype.card Tid) := by
  have hsum : ∑ t, (s.locals t).stores = Fintype.card Tid * iter :=
    Finset.sum_const_nat fun t _ => h.stores_exited (hexited t)
  rw [h.counted, hsum, Nat.mul_comm]

/-- A thread inside is ready, and if there is none, the oldest arrival is. -/
theorem Counts.exists_ready [Fintype Tid] {iter : Nat} {s : Counter Tid} (h : Counts iter s)
    (hmore : ¬ s.Exited) : ∃ t, s.Ready t := by
  obtain ⟨lock, hlock⟩ := h.represents
  cases hpresent : lock.present with
  | nil =>
      obtain ⟨t, ht⟩ := not_forall.mp hmore
      refine ⟨t, ht, fun myturn hwaits => ?_⟩
      have hidle := hlock.idle t (by rw [hpresent]; exact List.not_mem_nil)
      rw [hwaits] at hidle
      cases hidle
  | cons t rest =>
      have hfirst : lock.arrived[lock.departed]? = some t := by
        have hget : lock.present[0]? = some t := by rw [hpresent]; rfl
        rwa [FifoLock.present, List.getElem?_drop] at hget
      refine ⟨t, fun hexited => ?_, fun myturn hwaits => ?_⟩
      · have hplace := h.places t
        unfold Locals.At at hplace
        simp only [hexited] at hplace
        have hbusy := (hlock.present_iff t).mpr (by rw [hpresent]; exact List.mem_cons_self)
        exact hbusy hplace.1
      · rcases Nat.lt_or_ge lock.departed lock.admitted with hheld | hfree
        · rcases hlock.inside t ⟨hheld, hfirst⟩ with hinside | hinside
          · rw [hwaits] at hinside
            cases hinside
          · rw [hwaits] at hinside
            cases hinside
        · have hticket := hlock.waiting _ t ⟨hfree, hfirst⟩
          rw [hwaits] at hticket
          rw [hlock.turn]
          exact (Phase.waiting.inj hticket).symm

variable [DecidableEq Tid]

/-- The cases of a step of a thread at its line. -/
inductive Moves (iter : Nat) (s : Counter Tid) (t : Tid) : Counter Tid → Prop
  | take : (s.locals t).line = .lock → (s.locals t).i < iter → s.lock.phase t = .idle →
      Moves iter s t
        { s with
          lock :=
            { s.lock with mutex.ticket := s.lock.mutex.ticket + 1 }.setPhase t
              (.waiting s.lock.mutex.ticket) }
  | spin (myturn : BitVec 32) : (s.locals t).line = .lock → (s.locals t).i < iter →
      s.lock.phase t = .waiting myturn → s.lock.mutex.turn ≠ myturn → Moves iter s t s
  | enter : (s.locals t).line = .lock → (s.locals t).i < iter →
      s.lock.phase t = .waiting s.lock.mutex.turn → Moves iter s t
        ({ s with lock := s.lock.setPhase t .inside }.setLocals t
          { s.locals t with line := .load })
  | exit : (s.locals t).line = .lock → (s.locals t).i = iter → s.lock.phase t = .idle →
      Moves iter s t (s.setLocals t { s.locals t with line := .exited })
  | load : (s.locals t).line = .load → Moves iter s t
      (s.setLocals t { s.locals t with temp := s.c, line := .increment })
  | increment : (s.locals t).line = .increment → Moves iter s t
      (s.setLocals t { s.locals t with temp := (s.locals t).temp + 1, line := .store })
  | store : (s.locals t).line = .store → Moves iter s t
      ({ s with c := (s.locals t).temp }.setLocals t { s.locals t with line := .unlock })
  | read : (s.locals t).line = .unlock → s.lock.phase t = .inside → Moves iter s t
      { s with lock := s.lock.setPhase t (.unlocking s.lock.mutex.turn) }
  | write : (s.locals t).line = .unlock → s.lock.phase t = .unlocking s.lock.mutex.turn →
      Moves iter s t
        ({ s with
            lock :=
              { s.lock with mutex.turn := s.lock.mutex.turn + 1 }.setPhase t .idle }.setLocals
          t { s.locals t with i := (s.locals t).i + 1, line := .lock })
  | exited : (s.locals t).line = .exited → Moves iter s t s

theorem Moves.step_lock {iter : Nat} {s next : Counter Tid} {t : Tid}
    (h : Moves iter s t next) :
    next.lock = s.lock ∨ ∃ action, s.lock.step action = some next.lock := by
  cases h with
  | take _ _ hphase =>
      refine Or.inr ⟨.fetchAndAdd t, ?_⟩
      rw [State.step, hphase]
  | spin myturn _ _ _ _ => exact Or.inl rfl
  | enter _ _ hphase =>
      refine Or.inr ⟨.testTurn t, ?_⟩
      rw [State.step, hphase]
      exact if_neg fun hne => hne rfl
  | exit _ _ _ => exact Or.inl rfl
  | load _ => exact Or.inl rfl
  | increment _ => exact Or.inl rfl
  | store _ => exact Or.inl rfl
  | read _ hphase =>
      refine Or.inr ⟨.readTurn t, ?_⟩
      rw [State.step, hphase]
  | write _ hphase =>
      refine Or.inr ⟨.writeTurn t, ?_⟩
      rw [State.step, hphase]
      rfl
  | exited _ => exact Or.inl rfl

theorem Moves.others {iter : Nat} {s next : Counter Tid} {t u : Tid}
    (h : Moves iter s t next) (hne : u ≠ t) :
    next.lock.phase u = s.lock.phase u ∧ next.locals u = s.locals u := by
  cases h with
  | take _ _ _ => exact ⟨State.setPhase_of_ne _ hne _, rfl⟩
  | spin _ _ _ _ _ => exact ⟨rfl, rfl⟩
  | enter _ _ _ => exact ⟨State.setPhase_of_ne _ hne _, Function.update_of_ne hne _ _⟩
  | exit _ _ _ => exact ⟨rfl, Function.update_of_ne hne _ _⟩
  | load _ => exact ⟨rfl, Function.update_of_ne hne _ _⟩
  | increment _ => exact ⟨rfl, Function.update_of_ne hne _ _⟩
  | store _ => exact ⟨rfl, Function.update_of_ne hne _ _⟩
  | read _ _ => exact ⟨State.setPhase_of_ne _ hne _, rfl⟩
  | write _ _ => exact ⟨State.setPhase_of_ne _ hne _, Function.update_of_ne hne _ _⟩
  | exited _ => exact ⟨rfl, rfl⟩

section Steps

variable {iter : Nat} {s next : Counter Tid} {t : Tid}

theorem step_moves (hplace : (s.locals t).At iter s.c (s.lock.phase t))
    (hturn : ∀ turn, s.lock.phase t = .unlocking turn → turn = s.lock.mutex.turn) :
    ∃ next, s.step iter t = some next ∧ Moves iter s t next := by
  unfold Locals.At at hplace
  unfold step
  cases hline : (s.locals t).line with
  | lock =>
      simp only [hline] at hplace
      rcases hplace with ⟨hphase, hle⟩ | ⟨⟨myturn, hphase⟩, hlt⟩
      · rcases Nat.lt_or_eq_of_le hle with hlt | heq
        · refine ⟨_, ?_, .take hline hlt hphase⟩
          simp only [hline, hlt, if_true, hphase, State.step, Option.bind_eq_bind, Option.bind_some]
        · refine ⟨_, ?_, .exit hline heq hphase⟩
          simp only [hline, heq, Nat.lt_irrefl, if_false]
      · rcases Classical.em (s.lock.mutex.turn = myturn) with rfl | hne
        · refine ⟨_, ?_, .enter hline hlt hphase⟩
          simp only [hline, hlt, if_true, hphase, State.step, ne_eq, not_true_eq_false, if_false,
            Option.bind_eq_bind, Option.bind_some, State.setPhase_self]
        · refine ⟨s, ?_, .spin myturn hline hlt hphase hne⟩
          simp only [hline, hlt, if_true, hphase, State.step, ne_eq, hne, not_false_eq_true,
            Option.bind_eq_bind, Option.bind_some]
  | load => exact ⟨_, by simp only [hline], .load hline⟩
  | increment => exact ⟨_, by simp only [hline], .increment hline⟩
  | store => exact ⟨_, by simp only [hline], .store hline⟩
  | unlock =>
      simp only [hline] at hplace
      rcases hplace with ⟨hphase | ⟨turn, hphase⟩, -⟩
      · refine ⟨_, ?_, .read hline hphase⟩
        simp only [hline, hphase, State.step, Option.bind_eq_bind, Option.bind_some]
      · obtain rfl := hturn turn hphase
        refine ⟨_, ?_, .write hline hphase⟩
        simp only [hline, hphase, State.step, Option.bind_eq_bind, Option.bind_some]
  | exited => exact ⟨s, by simp only [hline], .exited hline⟩

def Moves.adds (s : Counter Tid) (t : Tid) : Nat :=
  if (s.locals t).line = .store then 1 else 0

theorem Moves.stores (h : Moves iter s t next) :
    (next.locals t).stores = (s.locals t).stores + Moves.adds s t := by
  unfold Locals.stores Moves.adds
  cases h with
  | take hline _ _ => simp [hline]
  | spin _ hline _ _ _ => simp [hline]
  | enter hline _ _ => simp [hline, setLocals]
  | exit hline _ _ => simp [hline, setLocals]
  | load hline => simp [hline, setLocals]
  | increment hline => simp [hline, setLocals]
  | store hline => simp [hline, setLocals]
  | read hline _ => simp [hline]
  | write hline _ => simp [hline, setLocals]
  | exited hline => simp [hline]

/-- `c` is what it was, unless the thread stores its `temp`. -/
theorem Moves.adds_c (h : Moves iter s t next)
    (hplace : (s.locals t).At iter s.c (s.lock.phase t)) :
    next.c = s.c + BitVec.ofNat 32 (Moves.adds s t) := by
  unfold Moves.adds
  cases h with
  | take hline _ _ => simp [hline]
  | spin _ hline _ _ _ => simp [hline]
  | enter hline _ _ => simp [hline, setLocals]
  | exit hline _ _ => simp [hline, setLocals]
  | load hline => simp [hline, setLocals]
  | increment hline => simp [hline, setLocals]
  | store hline =>
      simp only [Locals.At, hline] at hplace
      rw [if_pos hline]
      exact hplace.2.2
  | read hline _ => simp [hline]
  | write hline _ => simp [hline, setLocals]
  | exited hline => simp [hline]

theorem Moves.place (h : Moves iter s t next)
    (hplace : (s.locals t).At iter s.c (s.lock.phase t)) :
    (next.locals t).At iter next.c (next.lock.phase t) := by
  unfold Locals.At at hplace ⊢
  cases h with
  | take hline hlt _ => simp [hline, hlt]
  | spin _ hline _ _ _ => simpa [hline] using hplace
  | enter hline hlt _ => simp [setLocals, hlt]
  | exit hline heq hphase => simp [setLocals, heq, hphase]
  | load hline => simpa [setLocals, hline] using hplace
  | increment hline =>
      simp only [hline] at hplace
      simp [setLocals, hplace]
  | store hline =>
      simp only [hline] at hplace
      simp [setLocals, hplace]
  | read hline _ =>
      simp only [hline] at hplace
      simp [hline, hplace]
  | write hline _ =>
      simp only [hline] at hplace
      simp [setLocals, Nat.succ_le_of_lt hplace.2]
  | exited hline => simpa [hline] using hplace

end Steps

namespace Counts

variable [Fintype Tid] {iter : Nat} {s next : Counter Tid}

theorem moves (h : Counts iter s) (t : Tid) :
    ∃ next, s.step iter t = some next ∧ Moves iter s t next :=
  step_moves (h.places t) fun _ => h.unlocking_turn

theorem sum_stores {t : Tid} (hmoves : Moves iter s t next) :
    ∑ u, (next.locals u).stores = (∑ u, (s.locals u).stores) + Moves.adds s t := by
  have hothers : ∑ u ∈ Finset.univ.erase t, (next.locals u).stores =
      ∑ u ∈ Finset.univ.erase t, (s.locals u).stores := by
    refine Finset.sum_congr rfl fun u hu => ?_
    rw [(hmoves.others (Finset.ne_of_mem_erase hu)).2]
  rw [← Finset.add_sum_erase _ _ (Finset.mem_univ t), hothers, hmoves.stores,
    ← Finset.add_sum_erase Finset.univ (fun u => (s.locals u).stores) (Finset.mem_univ t)]
  omega

theorem step (h : Counts iter s) (hcard : Fintype.card Tid < 2 ^ 32) {t : Tid}
    (hmoves : Moves iter s t next) : Counts iter next where
  represents := by
    obtain ⟨lock, hlock⟩ := h.represents
    rcases hmoves.step_lock with hsame | ⟨action, haction⟩
    · rw [hsame]
      exact ⟨lock, hlock⟩
    · obtain ⟨after, hafter, -⟩ := step_advances hlock (few_outstanding hcard s.lock) haction
      exact ⟨after, hafter⟩
  places u := by
    rcases Classical.em (u = t) with rfl | hne
    · exact hmoves.place (h.places u)
    · obtain ⟨hphase, hlocals⟩ := hmoves.others hne
      rw [hphase, hlocals]
      rcases Classical.em ((s.locals t).line = .store) with hstore | hkept
      · -- only one thread is inside
        have hinside : s.lock.phase t = .inside := by
          have hplace := h.places t
          unfold Locals.At at hplace
          simp only [hstore] at hplace
          exact hplace.1
        refine (h.places u).outside fun hother => hne ?_
        exact h.exclusive (Or.inl hother) (Or.inl hinside)
      · have hc := hmoves.adds_c (h.places t)
        rw [Moves.adds, if_neg hkept, BitVec.add_zero] at hc
        rw [hc]
        exact h.places u
  counted := by
    rw [hmoves.adds_c (h.places t), sum_stores hmoves, BitVec.ofNat_add, ← h.counted]

theorem run (hcard : Fintype.card Tid < 2 ^ 32) (schedule : List Tid) : ∀ {s : Counter Tid},
    Counts iter s → Fairness.run (Counter.step iter) s schedule = some next →
      Counts iter next := by
  induction schedule with
  | nil =>
      intro s h hrun
      obtain rfl := Option.some.inj hrun
      exact h
  | cons t schedule ih =>
      intro s h hrun
      obtain ⟨mid, hstep, hrest⟩ := Option.bind_eq_some_iff.mp hrun
      obtain ⟨other, hother, hmoves⟩ := h.moves t
      obtain rfl := Option.some.inj (hother.symm.trans hstep)
      exact ih (h.step hcard hmoves) hrest

end Counts

/-- Whatever the order of the accesses, no update of `c` is lost. -/
theorem counter_exact [Fintype Tid] (hcard : Fintype.card Tid < 2 ^ 32) (iter : Nat)
    (mutex : MyPthreadMutex) (stale : Tid → BitVec 32) {schedule : List Tid}
    {reached : Counter Tid}
    (hrun : Fairness.run (step iter) (start mutex stale) schedule = some reached) :
    reached.c = BitVec.ofNat 32 (∑ t, (reached.locals t).stores) ∧
      (reached.Exited → reached.c = BitVec.ofNat 32 (iter * Fintype.card Tid)) := by
  have hcounts := (Counts.start iter mutex stale).run hcard schedule hrun
  exact ⟨hcounts.counted, hcounts.c_exited⟩

theorem counter_exact_pair :
    ∃ reached, Fairness.run (step 1) (start ⟨7, 3⟩ fun t : Bool => if t then 5 else 6)
        [true, false, false, true, true, false, true, true, true, true, false, false, false,
          false, false, false, true, false] = some reached ∧ reached.c = 2 := by
  have hlines : (Fairness.run (step 1) (start ⟨7, 3⟩ fun t : Bool => if t then 5 else 6)
      [true, false, false, true, true, false, true, true, true, true, false, false, false,
        false, false, false, true, false]).map
          (fun s => ((s.locals false).line, (s.locals true).line)) =
      some (.exited, .exited) := by
    decide
  obtain ⟨reached, hrun, hline⟩ := Option.map_eq_some_iff.mp hlines
  obtain ⟨hfalse, htrue⟩ := Prod.mk.inj hline
  exact ⟨reached, hrun, (counter_exact (by decide) 1 ⟨7, 3⟩ _ hrun).2
    (Bool.forall_bool.mpr ⟨hfalse, htrue⟩)⟩

section Work

variable {iter : Nat} {s next : Counter Tid} {t : Tid}

theorem Moves.works (h : Moves iter s t next)
    (hplace : (s.locals t).At iter s.c (s.lock.phase t)) :
    next = s ∧ ¬ s.Ready t ∨ next.remaining iter t < s.remaining iter t := by
  unfold Locals.At at hplace
  unfold remaining
  cases h with
  | take hline hlt hphase =>
      right
      simp [hline, hphase]
  | spin myturn _ _ hphase hne => exact Or.inl ⟨rfl, fun hready => hne (hready.2 _ hphase)⟩
  | enter hline hlt hphase =>
      right
      simp only [hline, hphase, setLocals, Function.update_self]
      omega
  | exit hline heq hphase =>
      right
      simp [hline, hphase, setLocals]
  | load hline =>
      right
      simp only [hline] at hplace
      simp only [hline, setLocals, Function.update_self]
      omega
  | increment hline =>
      right
      simp only [hline] at hplace
      simp only [hline, setLocals, Function.update_self]
      omega
  | store hline =>
      right
      simp only [hline] at hplace
      simp only [hline, setLocals, Function.update_self, hplace.1]
      omega
  | read hline hphase =>
      right
      simp only [hline] at hplace
      simp only [hline, hphase, State.setPhase_self]
      omega
  | write hline hphase =>
      right
      simp only [hline] at hplace
      simp only [hline, hphase, setLocals, Function.update_self, State.setPhase_self]
      omega
  | exited hline => exact Or.inl ⟨rfl, fun hready => hready.1 hline⟩

theorem Moves.remaining_others (h : Moves iter s t next) {u : Tid} (hne : u ≠ t) :
    next.remaining iter u = s.remaining iter u := by
  obtain ⟨hphase, hlocals⟩ := h.others hne
  rw [remaining, remaining, hphase, hlocals]

theorem Moves.work_lt [Fintype Tid] (h : Moves iter s t next)
    (hless : next.remaining iter t < s.remaining iter t) : next.work iter < s.work iter := by
  refine Finset.sum_lt_sum (fun u _ => ?_) ⟨t, Finset.mem_univ t, hless⟩
  rcases Classical.em (u = t) with rfl | hne
  · exact Nat.le_of_lt hless
  · exact Nat.le_of_eq (h.remaining_others hne)

end Work

namespace Counts

variable [Fintype Tid] {iter : Nat} {s next : Counter Tid}

theorem served_stays (h : Counts iter s) (hcard : Fintype.card Tid < 2 ^ 32) {t u : Tid}
    (hwaits : s.lock.phase t = .waiting s.lock.mutex.turn) (hmoves : Moves iter s u next) :
    next.lock.mutex.turn = s.lock.mutex.turn := by
  cases hmoves with
  | write hline hphase =>
      -- the thread that unlocks holds the lock, but nobody does
      obtain ⟨lock, hlock⟩ := h.represents
      have hholder := hlock.holder_of_inside (Or.inr ⟨_, hphase⟩)
      obtain ⟨i, hi⟩ : ∃ i, lock.WaitsAt i t := by
        have hpresent : t ∈ lock.present := by
          apply (hlock.present_iff t).mp
          simp [hwaits]
        refine (FifoLock.holder_or_waitsAt hpresent).resolve_left fun ht => ?_
        rcases hlock.inside t ht with hinside | hinside
        · rw [hwaits] at hinside
          cases hinside
        · rw [hwaits] at hinside
          cases hinside
      have hturn : s.lock.mutex.turn = BitVec.ofNat 32 i := by
        have hticket := hlock.waiting i t hi
        rw [hwaits] at hticket
        exact Phase.waiting.inj hticket
      obtain rfl := hlock.served_index (few_outstanding hcard s.lock) hi hturn
      exact absurd hholder.1 (Nat.not_lt.mpr hi.1)
  | take _ _ _ => rfl
  | spin _ _ _ _ _ => rfl
  | enter _ _ _ => rfl
  | exit _ _ _ => rfl
  | load _ => rfl
  | increment _ => rfl
  | store _ => rfl
  | read _ _ => rfl
  | exited _ => rfl

theorem ready_stays (h : Counts iter s) (hcard : Fintype.card Tid < 2 ^ 32) {t u : Tid}
    (hready : s.Ready t) (hne : u ≠ t) (hmoves : Moves iter s u next) : next.Ready t := by
  obtain ⟨hphase, hlocals⟩ := hmoves.others hne.symm
  refine ⟨by rw [hlocals]; exact hready.1, fun myturn hwaits => ?_⟩
  rw [hphase] at hwaits
  obtain rfl := hready.2 myturn hwaits
  exact h.served_stays hcard hwaits hmoves

end Counts

theorem progress [Fintype Tid] (hcard : Fintype.card Tid < 2 ^ 32) (iter : Nat) :
    Fairness.Progress (step iter) (Counts iter) Exited (@Ready Tid) (work iter) where
  returns s t h := by
    obtain ⟨next, hstep, hmoves⟩ := h.moves t
    refine ⟨next, hstep, h.step hcard hmoves, ?_⟩
    rcases hmoves.works (h.places t) with ⟨rfl, -⟩ | hless
    · exact Nat.le_refl _
    · exact Nat.le_of_lt (hmoves.work_lt hless)
  works s t next h hready hstep := by
    obtain ⟨other, hother, hmoves⟩ := h.moves t
    obtain rfl := Option.some.inj (hother.symm.trans hstep)
    rcases hmoves.works (h.places t) with ⟨-, hspins⟩ | hless
    · exact absurd hready hspins
    · exact hmoves.work_lt hless
  waits s t u next h hready hne hstep := by
    obtain ⟨other, hother, hmoves⟩ := h.moves u
    obtain rfl := Option.some.inj (hother.symm.trans hstep)
    exact h.ready_stays hcard hready hne hmoves
  finished s t next h hdone hstep := by
    obtain ⟨other, hother, hmoves⟩ := h.moves t
    obtain rfl := Option.some.inj (hother.symm.trans hstep)
    have hline := hdone t
    rw [step] at hstep
    simp only [hline] at hstep
    obtain rfl := Option.some.inj hstep
    exact hdone
  ready s h hmore := h.exists_ready hmore

/-- As many rounds as there are accesses to make end all loops, with every update
in `c`. -/
theorem counter_ends [Fintype Tid] (hcard : Fintype.card Tid < 2 ^ 32) (iter : Nat)
    (mutex : MyPthreadMutex) (stale : Tid → BitVec 32) {rounds : List (List Tid)}
    (hfair : ∀ round ∈ rounds, ∀ t, t ∈ round)
    (hlong : Fintype.card Tid * (7 * iter + 1) ≤ rounds.length) :
    ∃ reached, Fairness.run (step iter) (start mutex stale) rounds.flatten = some reached ∧
      reached.Exited ∧ reached.c = BitVec.ofNat 32 (iter * Fintype.card Tid) := by
  obtain ⟨reached, hrun, -, hexited⟩ := (progress hcard iter).rounds_done rounds
    (Counts.start iter mutex stale) hfair (by rw [work_start]; exact hlong)
  have hcounts := (Counts.start iter mutex stale).run hcard rounds.flatten hrun
  exact ⟨reached, hrun, hexited, hcounts.c_exited hexited⟩

theorem counter_ends_pair :
    ∃ reached, Fairness.run (step 1) (start ⟨7, 3⟩ fun _ : Bool => 5)
        (List.replicate 16 [true, false]).flatten = some reached ∧
      reached.Exited ∧ reached.c = 2 :=
  counter_ends (by decide) 1 ⟨7, 3⟩ (fun _ => 5)
    (fun round hround => by
      rw [List.eq_of_mem_replicate hround]
      decide)
    (by decide)

end Counter

end RutgersOS.Mutex
