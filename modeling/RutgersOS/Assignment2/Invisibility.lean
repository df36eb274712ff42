import RutgersOS.Assignment2.Ownership

namespace RutgersOS.Assignment2.Paging

open RutgersOS.Memory RutgersOS.Pthread

/-- Where `my_pthread_yield` is called: by a thread, at the end of
`my_pthread_create`, or at the end of `my_pthread_exit`. -/
inductive AtYield : Paging → Prop
  | direct {s : Paging} {current : Nat} : Reachable s →
      s.scheduler.current = some current → AtYield s
  | create {s mid : Paging} {current : Nat} (stale : Int) (table : Nat)
      (beside beside' : BitVec 32) : Reachable s → s.scheduler.current = some current →
      s.Admitted (.create stale table beside beside') →
      s.startThread stale table beside beside' = some mid → AtYield mid
  | exit {s mid : Paging} {current : Nat} (valuePtr : Int) : Reachable s →
      s.scheduler.current = some current → s.leave valuePtr = some mid → AtYield mid

theorem AtYield.tabled {s : Paging} (h : AtYield s) : s.Tabled ∧ s.scheduler.Pending := by
  cases h with
  | direct hreachable _ =>
      obtain ⟨htabled, hsteady⟩ := hreachable.tabled
      exact ⟨htabled, hsteady.pending⟩
  | create stale table beside beside' hreachable hcurrent hadmitted hstart =>
      obtain ⟨htabled, hsteady⟩ := hreachable.tabled
      obtain ⟨first, last, hstarted⟩ := startThread_spec hstart
      exact ⟨hstarted.tabled hsteady hcurrent hadmitted htabled,
        (hstarted.scheduler hsteady hcurrent).1⟩
  | exit valuePtr hreachable hcurrent hleave =>
      obtain ⟨htabled, hsteady⟩ := hreachable.tabled
      obtain ⟨hsame, hpending, -⟩ := leave_spec hsteady hcurrent hleave
      exact ⟨hsame.tabled htabled, hpending⟩

/-- No unjoined thread sees the switch, and the thread that runs next is in place. -/
theorem yield_invisible {s : Paging} (hyield : AtYield s) (howned : s.Owned)
    (hsafe : s.YieldSafe) (hfiled : s.YieldFiled) :
    ∃ next, s.myPthreadYield = some next ∧ next.logicalMemory = s.logicalMemory ∧
      ∀ current, next.scheduler.current = some current → ∀ p frame,
        next.place (current, p) = some frame → frame = p := by
  obtain ⟨htabled, hpending⟩ := hyield.tabled
  obtain ⟨next, hnext, hyielded⟩ := yield_spec hpending htabled howned hsafe
  exact ⟨next, hnext, hyielded.logicalMemory hfiled, hyielded.owned.inPlace⟩

theorem yield_invisible_create : ∃ s next,
    mainAlone.startThread 0 2000 0 0 = some s ∧ s.myPthreadYield = some next ∧
      next.logicalMemory = s.logicalMemory ∧
      ∀ current, next.scheduler.current = some current → ∀ p frame,
        next.place (current, p) = some frame → frame = p := by
  obtain ⟨s, hs⟩ := Option.isSome_iff_exists.mp
    (by decide +kernel : (mainAlone.startThread 0 2000 0 0).isSome = true)
  obtain ⟨htabled, hsteady⟩ := mainAlone_run.reachable.tabled
  obtain ⟨first, last, hstarted⟩ := startThread_spec hs
  have howned := hstarted.owned hsteady rfl htabled mainAlone_run.owned mainAlone_admitted
  have hyield : AtYield s :=
    .create 0 2000 0 0 mainAlone_run.reachable rfl mainAlone_admitted hs
  obtain ⟨next, hnext⟩ :=
    yield_invisible hyield howned (mainAlone_safe s hs) (yieldFiled_of_open hstarted.fileOpen)
  exact ⟨s, next, hs, hnext⟩

def Enough (s : Paging) : Prop :=
  s.nextFreePage ≠ none ∧ ∀ t stop, s.scheduler.current = some t → s.EndsAt t stop →
    (landing s.masterTable (stop + 1)).length = stop + 1

def touched : Option Paging :=
  mainAlone.step (.load 4096)

def shared : Option Paging :=
  touched.bind fun s => s.step (.create 0 2000 0 0)

theorem touched_run : ∃ s, touched = some s ∧ SafeRun s ∧
    s.scheduler = Scheduler.initializeScheduler 0 := by
  obtain ⟨s, hs⟩ := Option.isSome_iff_exists.mp (by decide +kernel : touched.isSome = true)
  have hsafe : mainAlone.Safe (.load 4096) := by
    intro _ _
    refine Or.inr ⟨by decide, fun c hc => ?_, ?_⟩
    · obtain rfl := Option.some.inj hc
      decide
    · exact fun hused => absurd hused (by decide)
  have hload : mainAlone.touch 4096 = some s := hs
  exact ⟨s, hs, .step (.load 4096) mainAlone_run rfl trivial hsafe hs,
    (touch_rewrites hload).scheduler⟩

theorem shared_run : ∃ s, shared = some s ∧ SafeRun s := by
  obtain ⟨s, hs, hrun, hscheduler⟩ := touched_run
  obtain ⟨next, hnext⟩ := Option.isSome_iff_exists.mp
    (by decide +kernel : shared.isSome = true)
  have hstep : s.step (.create 0 2000 0 0) = some next := by
    rw [← hnext, shared, hs, Option.bind_some]
  have hfacts : touched.map (fun s => (s.place (0, 0), s.place (0, 1), s.place (0, 2),
      (landing s.masterTable 5).length)) = some (some 0, some 1, none, 5) := by
    decide +kernel
  rw [hs] at hfacts
  obtain ⟨hfirst, hsecond, hnone, henough⟩ : s.place (0, 0) = some 0 ∧
      s.place (0, 1) = some 1 ∧ s.place (0, 2) = none ∧
        (landing s.masterTable 5).length = 5 := by
    simpa using Option.some.inj hfacts
  have hends : s.EndsAt 0 2 := by
    refine ⟨fun k hk => ?_, hnone, by decide⟩
    rcases Nat.le_one_iff_eq_zero_or_eq_one.mp (Nat.le_of_lt_succ hk) with rfl | rfl
    · rw [hfirst]
      nofun
    · rw [hsecond]
      nofun
  have hcurrent : s.scheduler.current = some 0 := by
    rw [hscheduler]
    rfl
  have hadmitted : s.Admitted (.create 0 2000 0 0) := by
    intro t other hother
    have hload : mainAlone.touch 4096 = some s := hs
    rw [(touch_rewrites hload).tableOf] at hother
    exact mainAlone_admitted t other hother
  exact ⟨next, hnext, .step _ hrun hcurrent hadmitted
    (firstCreate_safe hscheduler hrun.reachable.tabled.1 hrun.owned hends Nat.zero_lt_two
      henough hadmitted) hstep⟩

theorem yield_visible : ¬ ∀ s, AtYield s → s.Owned → s.Enough → s.fileOpen = true →
    ∃ next, s.myPthreadYield = some next ∧ next.logicalMemory = s.logicalMemory ∧
      ∀ current, next.scheduler.current = some current → ∀ p frame,
        next.place (current, p) = some frame → frame = p := by
  intro h
  obtain ⟨s, hs, hrun⟩ := shared_run
  have hfacts : shared.map (fun s => (s.scheduler.current, s.fileOpen, s.nextFreePage)) =
      some (some 1, true, some 1) := by
    decide +kernel
  have hplaces : shared.map (fun s => (s.place (1, 0), s.place (1, 1),
      (landing s.masterTable 2).length)) = some (some 0, none, 2) := by
    decide +kernel
  rw [hs] at hfacts hplaces
  obtain ⟨hcurrent, hopen, hfree⟩ : s.scheduler.current = some 1 ∧ s.fileOpen = true ∧
      s.nextFreePage = some 1 := by
    simpa using Option.some.inj hfacts
  obtain ⟨hfirst, hnone, henough⟩ : s.place (1, 0) = some 0 ∧ s.place (1, 1) = none ∧
      (landing s.masterTable 2).length = 2 := by
    simpa using Option.some.inj hplaces
  have hends : s.EndsAt 1 1 := by
    refine .one ?_ hnone
    rw [hfirst]
    nofun
  have henough' : s.Enough := by
    refine ⟨by rw [hfree]; nofun, fun t stop ht hstop => ?_⟩
    obtain rfl := Option.some.inj (hcurrent.symm.trans ht)
    obtain rfl := hends.unique hstop
    exact henough
  obtain ⟨next, hnext, hlogical, -⟩ := h s (.direct hrun.reachable hcurrent) hrun.owned
    henough' hopen
  -- the first byte of its header is gone
  have hbefore : shared.map (fun s => (s.logicalMemory (1, 0)).map (· 0)) =
      some (some 0xF0) := by
    decide +kernel
  have hafter : (shared.bind myPthreadYield).map
      (fun s => (s.logicalMemory (1, 0)).map (· 0)) = some (some 0) := by
    decide +kernel
  rw [hs, Option.bind_some, hnext, Option.map_some, hlogical] at hafter
  rw [hs, Option.map_some, hafter] at hbefore
  revert hbefore
  decide

end RutgersOS.Assignment2.Paging
