import Mathlib.Data.Set.Card
import RutgersOS.Assignment2.Rounds

namespace RutgersOS.Assignment2

def Switch.threads : Switch → List Nat
  | .stay => []
  | .resume next => [next]
  | .swap temp next => [temp, next]

namespace Scheduler

def yieldThreads (s : Scheduler) : List Nat :=
  s.myPthreadYield.elim [] fun result => result.2.threads

theorem Pending.yieldThreads_alive {s : Scheduler} (h : s.Pending) {t : Nat}
    (ht : t ∈ s.yieldThreads) : s.Alive t := by
  obtain ⟨next, switch, hyield, hyields, -⟩ := h.yields
  rw [yieldThreads, hyield] at ht
  cases hyields.hands with
  | stay _ => cases ht
  | resume _ _ halive =>
      obtain rfl := List.mem_singleton.mp ht
      exact halive
  | swap _ hgone _ halive =>
      rcases List.mem_pair.mp ht with rfl | rfl
      · exact hgone
      · exact halive

end Scheduler

namespace Paging

open RutgersOS.Memory RutgersOS.Pthread

/-- `my_pthread_create` does not compare the new id with `MAXTHREADS`, and a fault
or the loop of `myallocate` starts from the table of `current`. -/
def indices (s : Paging) : Event → List Nat
  | .create stale _ _ _ =>
      s.scheduler.threadIDS ::
        (s.scheduler.enqueueThread stale).elim [] Scheduler.yieldThreads
  | .yield => s.scheduler.yieldThreads
  | .exit valuePtr =>
      (s.scheduler.removeCurrent valuePtr).elim [] Scheduler.yieldThreads
  | .join thread =>
      match s.scheduler.threads thread with
      | none => []
      | some struct =>
          if struct.state ≠ .completed then s.scheduler.yieldThreads else [thread]
  | .load _ | .store _ _ | .setValue _ _ _ | .mapPage _ => s.scheduler.current.toList
  | .reuse _ _ => []

/-- Whatever the running thread calls next stays in the array, and so does every
search for the owner of a frame. -/
structure Indexed (s : Paging) : Prop where
  below : ∀ current event, s.scheduler.current = some current →
    ∀ i ∈ s.indices event, i < maxThreads
  ended : ∃ j, j < maxThreads ∧ s.pageTables j = none

theorem evictFrom_null {frame : Nat} (n : Nat) : ∀ {s next : Paging} {j : Nat},
    evictFrom frame s j n = some next → ∃ k, j ≤ k ∧ k < j + n ∧ s.pageTables k = none := by
  induction n with
  | zero => exact nofun
  | succ n ih =>
      intro s next j h
      rw [evictFrom] at h
      split at h
      · next hnull => exact ⟨j, Nat.le_refl j, by omega, hnull⟩
      · obtain ⟨mid, hmid, hrest⟩ := Option.bind_eq_some_iff.mp h
        obtain ⟨k, hle, hlt, hnull⟩ := ih hrest
        refine ⟨k, by omega, by omega, ?_⟩
        rcases evictEntry_cases frame _ s memoryPages 0 with ⟨-, heq⟩ | ⟨_, -, -, -, heq⟩
        · rwa [Option.some.inj (hmid.symm.trans heq)] at hnull
        · rwa [(rehome_rewrites (heq.symm.trans hmid)).pageTables] at hnull

theorem evict_null {frame : Nat} {s next : Paging} (h : evict frame s = some next) :
    ∃ j, j < maxThreads ∧ s.pageTables j = none := by
  obtain ⟨j, -, hlt, hnull⟩ := evictFrom_null maxThreads h
  exact ⟨j, Nat.zero_add maxThreads ▸ hlt, hnull⟩

/-! Runs, with the calls of `my_pthread_create` counted.  `stale` is what the memory of
the array held, and no more than `bound` threads exist at a time. -/

def initializeOver (stale : Nat → Option Nat) (memory swapFile : Bytes)
    (cells : Nat → Nat) (table : Nat) (garbage : Int) : Paging :=
  { initializeMemory memory swapFile cells table garbage with
    pageTables := Function.update stale 0 (some table) }

def Event.creates : Event → Nat → Nat
  | .create _ _ _ _, creates => creates + 1
  | _, creates => creates

theorem Event.creates_le (event : Event) (creates : Nat) :
    event.creates creates ≤ creates + 1 := by
  cases event with
  | create _ _ _ _ => exact Nat.le_refl _
  | _ => exact Nat.le_succ creates

inductive Run (stale : Nat → Option Nat) (bound : ℕ∞) : Nat → Paging → Prop
  | start (memory swapFile : Bytes) (cells : Nat → Nat) (table : Nat) (garbage : Int) :
      Run stale bound 0 (initializeOver stale memory swapFile cells table garbage)
  | step {creates : Nat} {s next : Paging} {current : Nat} (event : Event) :
      Run stale bound creates s → s.scheduler.current = some current →
        s.Admitted event → s.step event = some next →
          {t | next.scheduler.Alive t}.encard ≤ bound →
            Run stale bound (event.creates creates) next

structure Numbered (stale : Nat → Option Nat) (creates : Nat) (s : Paging) : Prop where
  room : creates < maxThreads
  ids : s.scheduler.threadIDS = creates + 1
  alive : ∀ t, s.scheduler.Alive t → t ≤ creates
  used : ∀ t, t ≤ creates → s.pageTables t ≠ none
  unused : ∀ t, creates < t → s.pageTables t = stale t

namespace Numbered

variable {stale : Nat → Option Nat} {creates : Nat} {s next : Paging}

theorem congr (h : Numbered stale creates s)
    (hids : next.scheduler.threadIDS = s.scheduler.threadIDS)
    (halive : ∀ t, next.scheduler.Alive t → s.scheduler.Alive t)
    (hpageTables : next.pageTables = s.pageTables) : Numbered stale creates next where
  room := h.room
  ids := hids.trans h.ids
  alive t ht := h.alive t (halive t ht)
  used := by
    rw [hpageTables]
    exact h.used
  unused := by
    rw [hpageTables]
    exact h.unused

theorem rewrites (h : Numbered stale creates s) (hrewrites : Rewrites s next) :
    Numbered stale creates next := by
  apply h.congr _ _ hrewrites.pageTables
  · rw [hrewrites.scheduler]
  · intro t
    rw [hrewrites.scheduler]
    exact id

theorem rescheduled (h : Numbered stale creates s) (hsame : Rescheduled s next) :
    Numbered stale creates next :=
  h.congr hsame.ids (fun t => (hsame.alive t).mp) hsame.pageTables

theorem yield (h : Numbered stale creates s) (hpending : s.scheduler.Pending)
    (hyield : s.myPthreadYield = some next) :
    Numbered stale creates next ∧ next.scheduler.Steady := by
  obtain ⟨scheduler, switch, -, hyields, hsteady, hpages⟩ := yield_cases hpending hyield
  have hrewrites := switchPages_rewrites hpages
  refine ⟨(h.rescheduled (rescheduled_threads hyields.threads hyields.threadIDS)).rewrites
    hrewrites, ?_⟩
  rw [hrewrites.scheduler]
  exact hsteady

theorem started {garbage : Int} {table first last current : Nat}
    (h : Numbered stale creates s) (hsteady : s.scheduler.Steady)
    (hcurrent : s.scheduler.current = some current)
    (hstarted : Started s next garbage table first last) :
    Numbered stale (creates + 1) next := by
  obtain ⟨-, -, hids, hthreads⟩ := hstarted.scheduler hsteady hcurrent
  refine
    { room := h.ids ▸ hstarted.room
      ids := hids.trans (congrArg (· + 1) h.ids)
      alive := ?_
      used := ?_
      unused := ?_ }
  · intro t ht
    rw [Scheduler.Alive, hthreads, h.ids] at ht
    rcases Classical.em (t = creates + 1) with rfl | hne
    · exact Nat.le_refl _
    · rw [Function.update_of_ne hne] at ht
      exact Nat.le_succ_of_le (h.alive t ht)
  · intro t ht
    rw [hstarted.pageTables, h.ids]
    rcases Nat.le_succ_iff.mp ht with hold | rfl
    · rw [Function.update_of_ne (Nat.ne_of_lt (Nat.lt_succ_of_le hold))]
      exact h.used t hold
    · rw [Function.update_self]
      exact Option.some_ne_none table
  · intro t ht
    rw [hstarted.pageTables, h.ids, Function.update_of_ne (Nat.ne_of_gt ht)]
    exact h.unused t (Nat.lt_of_succ_lt ht)

theorem forgotten {t : Nat} (h : Numbered stale creates s) (hforgotten : Forgotten s next t) :
    Numbered stale creates next := by
  apply h.congr _ _ hforgotten.pageTables
  · rw [hforgotten.scheduler]
    rfl
  · intro u hu hnone
    apply hu
    rw [hforgotten.scheduler, Scheduler.setThread]
    rcases Classical.em (u = t) with rfl | hne
    · exact Function.update_self _ _ _
    · exact (Function.update_of_ne hne _ _).trans hnone

theorem step {event : Event} {current : Nat} (h : Numbered stale creates s)
    (hsteady : s.scheduler.Steady) (hcurrent : s.scheduler.current = some current)
    (hstep : s.step event = some next) :
    Numbered stale (event.creates creates) next ∧ next.scheduler.Steady := by
  have hrewrites : Rewrites s next →
      Numbered stale creates next ∧ next.scheduler.Steady := by
    intro hrewrites
    refine ⟨h.rewrites hrewrites, ?_⟩
    rw [hrewrites.scheduler]
    exact hsteady
  cases event with
  | create garbage table beside beside' =>
      obtain ⟨mid, hmid, hyield⟩ := Option.bind_eq_some_iff.mp hstep
      obtain ⟨first, last, hstarted⟩ := startThread_spec hmid
      exact (h.started hsteady hcurrent hstarted).yield
        (hstarted.scheduler hsteady hcurrent).1 hyield
  | yield => exact h.yield hsteady.pending hstep
  | exit valuePtr =>
      obtain ⟨mid, hmid, hyield⟩ := Option.bind_eq_some_iff.mp hstep
      obtain ⟨hsame, hpending, -⟩ := leave_spec hsteady hcurrent hmid
      exact (h.rescheduled hsame).yield hpending hyield
  | join thread =>
      rcases join_cases hstep with hyield | ⟨hrelease, struct, hstruct, hcompleted⟩
      · exact h.yield hsteady.pending hyield
      · have hforgotten := releaseThread_forgotten hrelease
        refine ⟨h.forgotten hforgotten, ?_⟩
        rw [hforgotten.scheduler]
        exact (hsteady.release hstruct hcompleted).1
  | load address => exact hrewrites (access_rewrites hstep (Or.inl ⟨address, rfl⟩))
  | store address byte =>
      exact hrewrites (access_rewrites hstep (Or.inr (Or.inl ⟨address, byte, rfl⟩)))
  | setValue p size allocation =>
      exact hrewrites (access_rewrites hstep (Or.inr (Or.inr ⟨p, size, allocation, rfl⟩)))
  | mapPage i =>
      obtain ⟨_, _, -, -, hmap⟩ := mapEvent_cases hstep
      exact hrewrites (mapPage_rewrites hmap)
  | reuse cell value =>
      obtain rfl := Option.some.inj hstep
      exact ⟨h.congr rfl (fun _ => id) rfl, hsteady⟩

theorem indices_le {event : Event} {current i : Nat} (h : Numbered stale creates s)
    (hsteady : s.scheduler.Steady) (hcurrent : s.scheduler.current = some current)
    (hi : i ∈ s.indices event) : i ≤ event.creates creates := by
  have hyield : ∀ t ∈ s.scheduler.yieldThreads, t ≤ creates :=
    fun t ht => h.alive t (hsteady.pending.yieldThreads_alive ht)
  have hrunning : i ∈ s.scheduler.current.toList → i ≤ creates := by
    intro hmem
    rw [hcurrent] at hmem
    obtain rfl := List.mem_singleton.mp hmem
    exact h.alive i (hsteady.current_alive hcurrent)
  cases event with
  | create garbage table beside beside' =>
      obtain ⟨mid, henqueue, hpending, -, -, hthreads⟩ :=
        hsteady.enqueueThread hcurrent garbage
      rw [indices, henqueue] at hi
      rcases List.mem_cons.mp hi with rfl | hmem
      · exact Nat.le_of_eq h.ids
      · have hmid := hpending.yieldThreads_alive hmem
        rw [Scheduler.Alive, hthreads, h.ids] at hmid
        rcases Classical.em (i = creates + 1) with rfl | hne
        · exact Nat.le_refl _
        · rw [Function.update_of_ne hne] at hmid
          exact Nat.le_succ_of_le (h.alive i hmid)
  | yield => exact hyield i hi
  | exit valuePtr =>
      obtain ⟨mid, hremove, hpending, -, -, hcases⟩ := hsteady.removeCurrent hcurrent valuePtr
      rw [indices, hremove] at hi
      have hmid := hpending.yieldThreads_alive hi
      rcases hcases with ⟨_, -, -, hthreads⟩ | ⟨value, -, hthreads⟩
      · rw [Scheduler.Alive, hthreads] at hmid
        exact h.alive i hmid
      · rw [Scheduler.Alive, hthreads] at hmid
        rcases Classical.em (i = current) with rfl | hne
        · exact h.alive i (hsteady.current_alive hcurrent)
        · rw [Function.update_of_ne hne] at hmid
          exact h.alive i hmid
  | join thread =>
      rw [indices] at hi
      split at hi
      · cases hi
      · next struct hstruct =>
          split at hi
          · exact hyield i hi
          · obtain rfl := List.mem_singleton.mp hi
            apply h.alive
            rw [Scheduler.Alive, hstruct]
            exact Option.some_ne_none struct
  | load address => exact hrunning hi
  | store address byte => exact hrunning hi
  | setValue p size allocation => exact hrunning hi
  | mapPage q => exact hrunning hi
  | reuse cell value => cases hi

theorem indices_lt {event : Event} {current i : Nat} (h : Numbered stale creates s)
    (hsteady : s.scheduler.Steady) (hcurrent : s.scheduler.current = some current)
    (hstep : s.step event = some next) (hi : i ∈ s.indices event) : i < maxThreads :=
  Nat.lt_of_le_of_lt (h.indices_le hsteady hcurrent hi)
    (h.step hsteady hcurrent hstep).1.room

/-- The array ends inside itself as long as an entry beyond the ids held NULL. -/
theorem indexed_iff (h : Numbered stale creates s) (hsteady : s.scheduler.Steady) :
    s.Indexed ↔ ∃ j, creates < j ∧ j < maxThreads ∧ stale j = none := by
  constructor
  · rintro ⟨-, j, hlt, hnull⟩
    have hbeyond : creates < j := Nat.not_le.mp fun hle => h.used j hle hnull
    exact ⟨j, hbeyond, hlt, (h.unused j hbeyond).symm.trans hnull⟩
  · rintro ⟨j, hbeyond, hlt, hnull⟩
    refine ⟨?_, j, hlt, (h.unused j hbeyond).trans hnull⟩
    intro current event hcurrent i hi
    have hle := h.indices_le hsteady hcurrent hi
    have hcreates := event.creates_le creates
    omega

end Numbered

section Start

variable (stale : Nat → Option Nat) (memory swapFile : Bytes) (cells : Nat → Nat)
  (table : Nat) (garbage : Int)

theorem initializeOver_numbered :
    Numbered stale 0 (initializeOver stale memory swapFile cells table garbage) where
  room := by decide
  ids := rfl
  alive t ht := by
    refine Nat.le_zero.mpr (Classical.not_not.mp fun hne => ht ?_)
    exact initializeMemory_threads memory swapFile cells table garbage hne
  used t ht := by
    obtain rfl := Nat.le_zero.mp ht
    nofun
  unused t ht := Function.update_of_ne (Nat.ne_of_gt ht) _ _

end Start

theorem Run.numbered {stale : Nat → Option Nat} {bound : ℕ∞} {creates : Nat} {s : Paging}
    (h : Run stale bound creates s) : Numbered stale creates s ∧ s.scheduler.Steady := by
  induction h with
  | start memory swapFile cells table garbage =>
      exact ⟨initializeOver_numbered stale memory swapFile cells table garbage,
        initializeMemory_steady memory swapFile cells table garbage⟩
  | step event _ hcurrent _ hstep _ ih => exact ih.1.step ih.2 hcurrent hstep

/-- The runs over an array of NULLs are the ones of the other results. -/
theorem reachable_iff_run {s : Paging} :
    Reachable s ↔ ∃ creates, Run (fun _ => none) ⊤ creates s := by
  constructor
  · intro h
    induction h with
    | start memory swapFile cells table garbage =>
        exact ⟨0, .start memory swapFile cells table garbage⟩
    | step event _ hcurrent hadmitted hstep ih =>
        obtain ⟨creates, hrun⟩ := ih
        exact ⟨_, .step event hrun hcurrent hadmitted hstep le_top⟩
  · rintro ⟨creates, hrun⟩
    induction hrun with
    | start memory swapFile cells table garbage =>
        exact .start memory swapFile cells table garbage
    | step event _ hcurrent hadmitted hstep _ ih =>
        exact .step event ih hcurrent hadmitted hstep

theorem encard_alive_le {s : Scheduler} {n : Nat}
    (h : ∀ t, 1 < t → t ≠ n → s.threads t = none) : {t | s.Alive t}.encard ≤ 3 := by
  have hsubset : {t | s.Alive t} ⊆ {0, 1, n} := by
    intro t ht
    rw [Set.mem_insert_iff, Set.mem_insert_iff, Set.mem_singleton_iff]
    have hcases : ¬ (1 < t ∧ t ≠ n) := fun hother => ht (h t hother.1 hother.2)
    omega
  calc {t | s.Alive t}.encard ≤ ({0, 1, n} : Set Nat).encard := Set.encard_le_encard hsubset
    _ ≤ ({n} : Set Nat).encard + 1 + 1 :=
      (Set.encard_insert_le {1, n} 0).trans (by gcongr; exact Set.encard_insert_le {n} 1)
    _ = 3 := by
      rw [Set.encard_singleton]
      rfl

theorem run_paired : ∃ s, Run (fun _ => none) 3 1 s ∧ Round s (·.Idle 2) := by
  have hfew : ∀ {scheduler : Scheduler}, (∀ t, 1 < t → scheduler.threads t = none) →
      {t | scheduler.Alive t}.encard ≤ 3 :=
    fun hgone => encard_alive_le (n := 0) fun t ht _ => hgone t ht
  obtain ⟨s₁, h₁, hround₁, hfirst₁⟩ := Round.start
  have hrun₁ : Run (fun _ => none) 3 1 s₁ :=
    .step (.create 0 2000 0 0) (.start _ _ _ _ _) rfl mainAlone_admitted h₁
      (hfew hround₁.scheduled.gone)
  obtain ⟨s₂, h₂, hround₂, hfirst₂⟩ := hround₁.yield (by decide) (by decide)
  have hrun₂ : Run (fun _ => none) 3 1 s₂ :=
    .step .yield hrun₁ hround₁.scheduled.current trivial h₂ (hfew hround₂.scheduled.gone)
  obtain ⟨s₃, h₃, hround₃, hfirst₃⟩ := hround₂.yield (by decide) (by decide)
  have hrun₃ : Run (fun _ => none) 3 1 s₃ :=
    .step .yield hrun₂ hround₂.scheduled.current trivial h₃ (hfew hround₃.scheduled.gone)
  obtain ⟨s₄, h₄, hround₄, hfirst₄⟩ := hround₃.yield (by decide) (by decide)
  have hempty : s₄.scheduler.queuePriority1.waiting = [] := by
    apply List.length_eq_zero_iff.mp
    rw [hfirst₄, hfirst₃, hfirst₂, List.length_tail, List.length_tail, List.length_tail, hfirst₁]
  exact ⟨s₄, .step .yield hrun₃ hround₃.scheduled.current trivial h₄
      (hfew hround₄.scheduled.gone),
    { hround₄ with scheduled := ⟨⟨_, _, hround₄.scheduled⟩, hempty⟩ }⟩

theorem run_rounds (k : Nat) : k + 2 < maxThreads →
    ∃ s, Run (fun _ => none) 3 (k + 1) s ∧ Round s (·.Idle (k + 2)) := by
  induction k with
  | zero => exact fun _ => run_paired
  | succ k ih =>
      intro hroom
      have hn : 1 < k + 2 := Nat.le_add_left 2 k
      obtain ⟨s, hrun, hround⟩ := ih (Nat.lt_of_succ_lt hroom)
      obtain ⟨first, hfirst, hbusy, huntouched, hfree⟩ :=
        hround.create hn (Nat.lt_of_succ_lt hroom)
      obtain ⟨second, hsecond, hleft, huntouched'⟩ := hbusy.exit hn huntouched hfree hroom
      obtain ⟨third, hthird, hidle⟩ := hleft.join hn huntouched'
      obtain ⟨_, _, hpaired⟩ := hidle.scheduled.paired
      have hrun' : Run (fun _ => none) 3 (k + 2) first :=
        .step (.create 0 4000 0 0) hrun hround.scheduled.current hround.admitted hfirst
          (encard_alive_le hbusy.scheduled.gone)
      have hrun'' : Run (fun _ => none) 3 (k + 2) second :=
        .step (.exit 0) hrun' hbusy.scheduled.current trivial hsecond
          (encard_alive_le hleft.scheduled.gone)
      refine ⟨third, ?_, hidle⟩
      exact .step (.join (k + 2)) hrun'' hleft.scheduled.current trivial hthird
        (encard_alive_le (n := 0) fun t ht _ => hpaired.gone t ht)

/-- As long as an entry beyond the ids of the calls so far held NULL. -/
theorem thread_ids_indexed_iff {stale : Nat → Option Nat} {bound : ℕ∞} {creates : Nat}
    {s : Paging} (hrun : Run stale bound creates s) :
    s.Indexed ↔ ∃ j, creates < j ∧ j < maxThreads ∧ stale j = none := by
  obtain ⟨hnumbered, hsteady⟩ := hrun.numbered
  exact hnumbered.indexed_iff hsteady

theorem thread_ids_indexed_iff_created : ∃ s, created = some s ∧ s.Indexed := by
  obtain ⟨s, hs, -⟩ := mainAlone_create
  have hrun : Run (fun _ => none) ⊤ 1 s :=
    .step (.create 0 2000 0 0) (.start _ _ _ _ _) rfl mainAlone_admitted hs le_top
  exact ⟨s, hs, (thread_ids_indexed_iff hrun).mpr ⟨2, by decide, by decide, rfl⟩⟩

/-- The call number 127 takes the last entry, in an array that was all NULL. -/
theorem thread_ids_overrun :
    ¬ ∀ creates s, Run (fun _ => none) 3 creates s → s.Indexed := by
  intro h
  obtain ⟨s, hrun, hround⟩ := run_rounds 125 (by decide)
  obtain ⟨next, hnext, hbusy, -⟩ := hround.create (by decide) (by decide)
  have hrun' : Run (fun _ => none) 3 127 next :=
    .step (.create 0 4000 0 0) hrun hround.scheduled.current hround.admitted hnext
      (encard_alive_le hbusy.scheduled.gone)
  obtain ⟨hnumbered, hsteady⟩ := hrun'.numbered
  obtain ⟨j, hbeyond, hlt, -⟩ := (hnumbered.indexed_iff hsteady).mp (h 127 next hrun')
  have hthreads : maxThreads = 128 := rfl
  omega

/-- From then on no search over the array comes to its end. -/
theorem evict_overruns {stale : Nat → Option Nat} {creates : Nat} {s : Paging}
    (h : Numbered stale creates s) (hsteady : s.scheduler.Steady) (hout : ¬ s.Indexed)
    (frame : Nat) : evict frame s = none := by
  cases hevict : evict frame s with
  | none => rfl
  | some next =>
      obtain ⟨j, hlt, hnull⟩ := evict_null hevict
      have hbeyond : creates < j := Nat.not_le.mp fun hle => h.used j hle hnull
      exact absurd ((h.indexed_iff hsteady).mpr
        ⟨j, hbeyond, hlt, (h.unused j hbeyond).symm.trans hnull⟩) hout

end Paging

end RutgersOS.Assignment2
