import RutgersOS.Assignment2.Filling
import RutgersOS.Assignment2.LostMoves

namespace RutgersOS.Assignment2.Paging.Exhausted

open RutgersOS.Memory RutgersOS.Pthread

section Table

variable (stray stray' : Nat) (s : Paging) (table : Nat) (beside beside' : BitVec 32)

theorem createTable_tables :
    (createTable stray stray' s table beside beside').scheduler = s.scheduler ∧
      (createTable stray stray' s table beside beside').pageTables = s.pageTables := by
  constructor
  · exact (createPageFooter_same _ _ _).1.scheduler.trans (createPageHeader_same _ _ _).1.scheduler
  · exact (createPageFooter_same _ _ _).1.pageTables.trans
      (createPageHeader_same _ _ _).1.pageTables

theorem createTable_full (hfull : Full s) :
    Full (createTable stray stray' s table beside beside') := by
  unfold createTable
  dsimp only
  generalize nextFreePage stray s = first
  generalize nextFreePage stray' _ = last
  intro frame hlt
  change (createPageFooter _ last beside').masterTable frame = true
  rw [(createPageFooter_same _ _ _).2.1]
  apply update_open
  change (createPageHeader _ first beside).masterTable frame = true
  rw [(createPageHeader_same _ _ _).2.1]
  exact update_open (hfull frame hlt)

end Table

theorem startThread_full {stray stray' : Nat} {s mid : Paging} {stale : Int} {table : Nat}
    {beside beside' : BitVec 32} (hfull : Full s)
    (h : startThread stray stray' s stale table beside beside' = some mid) :
    Full mid ∧ s.scheduler.enqueueThread stale = some mid.scheduler ∧
      mid.pageTables = Function.update s.pageTables s.scheduler.threadIDS (some table) := by
  obtain ⟨scheduler, henqueue, hrest⟩ := Option.bind_eq_some_iff.mp h
  split at hrest
  · obtain rfl := Option.some.inj hrest
    obtain ⟨hscheduler, htables⟩ := createTable_tables stray stray'
      { s with
        scheduler := scheduler
        pageTables := Function.update s.pageTables s.scheduler.threadIDS (some table) }
      table beside beside'
    refine ⟨createTable_full _ _ _ table beside beside' hfull, ?_, htables⟩
    exact henqueue.trans (congrArg some hscheduler.symm)
  · cases hrest

theorem yield_moves {s : Scheduler} (hwaits : s.queuePriority1.peek ≠ none)
    (scheduler : Scheduler) : s.myPthreadYield ≠ some (scheduler, .stay) := by
  intro h
  obtain ⟨node, hpeek⟩ := Option.ne_none_iff_exists'.mp hwaits
  rw [Scheduler.myPthreadYield, hpeek] at h
  dsimp only at h
  split at h
  · cases h
  · split at h
    · cases h
    · obtain ⟨⟨first, queue⟩, -, hrest⟩ := Option.bind_eq_some_iff.mp h
      obtain ⟨mid, -, hmid⟩ := Option.bind_eq_some_iff.mp hrest
      obtain ⟨following, -, hrun⟩ := Option.bind_eq_some_iff.mp hmid
      obtain ⟨thread, -, heq⟩ := Option.bind_eq_some_iff.mp hrun
      cases heq

theorem enqueueThread_waits {s next : Scheduler} {stale : Int}
    (h : s.enqueueThread stale = some next) : next.queuePriority1.peek ≠ none := by
  unfold Scheduler.enqueueThread at h
  dsimp only at h
  split at h
  · obtain rfl := Option.some.inj h
    exact fun hnone => List.cons_ne_nil _ _ (List.getLast?_eq_none_iff.mp hnone)
  · obtain ⟨c, -, heq⟩ := Option.bind_eq_some_iff.mp h
    obtain rfl := Option.some.inj heq
    exact fun hnone => List.cons_ne_nil _ _ (List.getLast?_eq_none_iff.mp hnone)

section Calls

variable {stray stray' c table : Nat} {s next : Paging} (hstray : totalPages ≤ stray)
  (hfull : Full s) (htabled : s.Tabled) (hsteady : s.scheduler.Steady)
  (hcurrent : s.scheduler.current = some c) (htable : s.tableOf c = some table)

include hstray hfull htabled hsteady hcurrent htable

theorem yield_loses (hmoves : ∀ scheduler, s.scheduler.myPthreadYield ≠ some (scheduler, .stay))
    (h : myPthreadYield stray s = some next) : next.cells table = unmapped := by
  apply yield_full hstray hfull hsteady.pending hcurrent (pageTables_of_tableOf htable) _
    hmoves h
  intro u other halive hother
  have hlive := (tableOf_eq halive).trans hother
  exact first_ne_last htabled htable hlive

theorem create_loses {stale : Int} {new : Nat} {beside beside' : BitVec 32}
    (hadmitted : s.Admitted (.create stale new beside beside'))
    (h : myPthreadCreate stray stray' s stale new beside beside' = some next) :
    next.cells table = unmapped := by
  obtain ⟨mid, hmid, hyield⟩ := Option.bind_eq_some_iff.mp h
  obtain ⟨hfull', henqueue, hslots⟩ := startThread_full hfull hmid
  obtain ⟨scheduler, hother, hpending, hrunning, -, hthreads⟩ :=
    hsteady.enqueueThread hcurrent stale
  obtain rfl := Option.some.inj (henqueue.symm.trans hother)
  have hslot := pageTables_of_tableOf htable
  have hne : c ≠ s.scheduler.threadIDS := Nat.ne_of_lt (htabled.lt htable)
  have hmine : mid.pageTables c = some table := by
    rw [hslots, Function.update_of_ne hne]
    exact hslot
  have hapart : ∀ u other, mid.scheduler.Alive u → mid.pageTables u = some other →
      table ≠ other + lastPage := by
    intro u other halive hother'
    rw [hslots] at hother'
    rcases Classical.em (u = s.scheduler.threadIDS) with rfl | hold
    · rw [Function.update_self] at hother'
      obtain rfl := Option.some.inj hother'
      have hbounds := hadmitted c table htable
      have hlast : lastPage = 1535 := rfl
      have hpages : memoryPages = 1536 := rfl
      omega
    · rw [Function.update_of_ne hold] at hother'
      rw [Scheduler.Alive, hthreads, Function.update_of_ne hold] at halive
      exact first_ne_last htabled htable ((tableOf_eq halive).trans hother')
  exact yield_full hstray hfull' hpending (hrunning.trans hcurrent) hmine hapart
    (yield_moves (enqueueThread_waits henqueue)) hyield

end Calls

def NeedsFrame (s : Paging) : Event → Prop
  | .create _ _ _ _ => True
  | .yield => ∀ scheduler, s.scheduler.myPthreadYield ≠ some (scheduler, .stay)
  | .exit valuePtr => ∃ mid scheduler u table, s.leave valuePtr = some mid ∧
      mid.scheduler.myPthreadYield = some (scheduler, .resume u) ∧ s.tableOf u = some table ∧
        ((∃ q, EvictsPage s u table q) ∨ ∃ n, EvictsLast s table n)
  | .join thread =>
      (∀ struct, s.scheduler.threads thread = some struct → struct.state ≠ .completed) ∧
        ∀ scheduler, s.scheduler.myPthreadYield ≠ some (scheduler, .stay)
  | .load address => ∃ table, s.Faults address table
  | .store address _ => ∃ table, s.Faults address table
  | .setValue p _ _ => ∃ table, s.Faults p table ∨ s.Faults (p + 3) table
  -- `myallocate` evicts a page from the frame
  | .mapPage i => (∀ c table, s.scheduler.current = some c → s.pageTables c = some table →
      s.cells (table + i) ≠ i) ∧
        ∃ j table k, s.pageTables j = some table ∧ k < memoryPages ∧ s.cells (table + k) = i
  | .reuse _ _ => False

theorem mapPage_full {stray : Nat} (hstray : totalPages ≤ stray) {s next : Paging}
    {table i : Nat} (hfull : Full s) (htabled : s.Tabled) (haway : s.cells (table + i) ≠ i)
    (hheld : ∃ j other k, s.pageTables j = some other ∧ k < memoryPages ∧
      s.cells (other + k) = i)
    (h : mapPage stray s table i = some next) : next.masterTable unmapped = true := by
  unfold mapPage at h
  split at h
  · next hi =>
      have hused := hfull i (page_lt_total hi)
      rw [if_neg fun hplaced => haway hplaced.2, if_pos hused] at h
      obtain ⟨mid, hmid, heq⟩ := Option.bind_eq_some_iff.mp h
      obtain rfl := Option.some.inj heq
      obtain ⟨j, other, k, hother, hk, hcell⟩ := hheld
      have hmarked : mid.masterTable unmapped = true := evictFrom_full hstray _ hfull hmid
        (Or.inr ⟨j, other, k, Nat.zero_le j, tables_below htabled hother, hother, hk, hcell⟩)
      exact update_open hmarked
  · cases h

theorem exit_full {stray : Nat} (hstray : totalPages ≤ stray) {s next : Paging} {c : Nat}
    {valuePtr : Int} (hfull : Full s) (htabled : s.Tabled) (hsteady : s.scheduler.Steady)
    (hcurrent : s.scheduler.current = some c) (hneeds : NeedsFrame s (.exit valuePtr))
    (h : myPthreadExit stray s valuePtr = some next) :
    next.masterTable unmapped = true ∨ Unmaps s next := by
  obtain ⟨mid, scheduler, u, table, hmid, hyield, htable, hevicts⟩ := hneeds
  obtain ⟨other, hother, hrest⟩ := Option.bind_eq_some_iff.mp h
  obtain rfl := Option.some.inj (hmid.symm.trans hother)
  obtain ⟨hleft, hpending, -⟩ := leave_spec hsteady hcurrent hmid
  obtain ⟨⟨scheduler', switch⟩, hyield', hpages⟩ := Option.bind_eq_some_iff.mp hrest
  obtain ⟨rfl, rfl⟩ := Prod.mk.inj (Option.some.inj (hyield.symm.trans hyield'))
  obtain ⟨other, switch, hother, hyields, -⟩ := hpending.yields
  obtain ⟨rfl, rfl⟩ := Prod.mk.inj (Option.some.inj (hyield.symm.trans hother))
  have hmoved := rescheduled_threads hyields.threads hyields.threadIDS
  have htables := hmoved.table.trans hleft.table
  have hcells := hmoved.cells.trans hleft.cells
  have hslots := hmoved.pageTables.trans hleft.pageTables
  have htabled' := hmoved.tabled (hleft.tabled htabled)
  have hfull' := hfull.congr (hmoved.masterTable.trans hleft.masterTable)
  change switchPages stray { mid with scheduler := scheduler } (.resume u) = some next at hpages
  generalize { mid with scheduler := scheduler } = resumed at *
  obtain ⟨mine, hmine, hresume⟩ := Option.bind_eq_some_iff.mp hpages
  rw [← htables] at htable
  obtain rfl := Option.some.inj (hmine.symm.trans (pageTables_of_tableOf htable))
  rcases hevicts with ⟨q, hpage⟩ | ⟨n, hlast⟩
  · right
    obtain ⟨t, lost, k, hlost, hk, hmapped, hblank⟩ := resume_unmaps hstray hfull' htabled'
      htable (hpage.congr htables hcells) hresume
    exact ⟨t, lost, k, htables ▸ hlost, hk, hcells ▸ hmapped, hblank⟩
  · left
    exact resume_marks hstray hfull' htabled' htable (hlast.congr hslots hcells) hresume

/-- Index 6969 of `masterTable` is written, or a thread loses a page. -/
theorem step_full {stray stray' : Nat} (hstray : totalPages ≤ stray) {s next : Paging}
    {c table : Nat} {event : Event} (hfull : Full s) (htabled : s.Tabled)
    (hsteady : s.scheduler.Steady) (hcurrent : s.scheduler.current = some c)
    (htable : s.tableOf c = some table) (hmapped : s.cells table ≠ unmapped)
    (hadmitted : s.Admitted event) (hneeds : NeedsFrame s event)
    (h : step stray stray' s event = some next) :
    next.masterTable unmapped = true ∨ Unmaps s next := by
  have htouch : ∀ {mid after address}, Full mid → touch stray mid address = some after →
      (mid.masterTable unmapped = true ∨ ∃ table, mid.Faults address table) →
        after.masterTable unmapped = true := by
    intro mid after address hmid hafter hcause
    rcases touch_full hstray hmid hafter with ⟨rfl, hquiet⟩ | ⟨-, hmarked⟩
    · exact hcause.resolve_right fun ⟨table, hfault⟩ => hquiet table hfault
    · exact hmarked
  have hfirst : next.cells table = unmapped → Unmaps s next :=
    fun hblank => ⟨c, table, 0, htable, by decide, hmapped, hblank⟩
  cases event with
  | create stale new beside beside' =>
      exact Or.inr (hfirst (create_loses hstray hfull htabled hsteady hcurrent htable hadmitted h))
  | yield =>
      exact Or.inr (hfirst (yield_loses hstray hfull htabled hsteady hcurrent htable hneeds h))
  | exit valuePtr => exact exit_full hstray hfull htabled hsteady hcurrent hneeds h
  | join thread =>
      obtain ⟨struct, hstruct, hrest⟩ := Option.bind_eq_some_iff.mp h
      rw [if_pos (hneeds.1 struct hstruct)] at hrest
      exact Or.inr
        (hfirst (yield_loses hstray hfull htabled hsteady hcurrent htable hneeds.2 hrest))
  | load address => exact Or.inl (htouch hfull h (Or.inr hneeds))
  | store address byte =>
      obtain ⟨mid, hmid, heq⟩ := Option.bind_eq_some_iff.mp h
      obtain rfl := Option.some.inj heq
      have hmarked := htouch hfull hmid (Or.inr hneeds)
      exact Or.inl hmarked
  | setValue p size allocation =>
      obtain ⟨mid, hmid, hrest⟩ := Option.bind_eq_some_iff.mp h
      obtain ⟨after, hafter, heq⟩ := Option.bind_eq_some_iff.mp hrest
      obtain rfl := Option.some.inj heq
      have hmarked : after.masterTable unmapped = true := by
        rcases touch_full hstray hfull hmid with ⟨rfl, hquiet⟩ | ⟨hfull', hmarked⟩
        · apply htouch hfull hafter
          obtain ⟨other, hfault⟩ := hneeds
          exact Or.inr ⟨other, hfault.resolve_left (hquiet other)⟩
        · exact htouch hfull' hafter (Or.inl hmarked)
      exact Or.inl hmarked
  | mapPage i =>
      obtain ⟨d, hd, hmid⟩ := Option.bind_eq_some_iff.mp h
      obtain ⟨mine, hmine, hmap⟩ := Option.bind_eq_some_iff.mp hmid
      exact Or.inl (mapPage_full hstray hfull htabled (hneeds.1 d mine hd hmine) hneeds.2 hmap)
  | reuse cell value => exact hneeds.elim

theorem not_intact {s next : Paging} (hreach : Reachable s)
    (h : next.masterTable unmapped = true ∨ Unmaps s next) : ¬ Intact s next := by
  intro hintact
  rcases h with hmarked | ⟨t, table, q, htable, hq, hmapped, hblank⟩
  · have hsame := hintact.marks unmapped (by decide)
    rw [hmarked, hreach.unmarked unmapped (by decide)] at hsame
    cases hsame
  · exact hintact.mapped t table q htable hq hmapped hblank

theorem evictFrom_full_returns {stray frame count : Nat} (hstray : totalPages ≤ stray)
    (n : Nat) : ∀ {s : Paging} {j : Nat}, Full s → s.Slots count → j ≤ count →
      count < j + n → ∃ next, evictFrom stray frame s j n = some next := by
  induction n with
  | zero => exact fun _ _ hle hlt => absurd hlt (Nat.not_lt.mpr hle)
  | succ n ih =>
      intro s j hfull hslots hle hlt
      rw [evictFrom]
      split
      · exact ⟨s, rfl⟩
      · next table htable =>
          have hmore : j < count := by
            apply Nat.lt_of_le_of_ne hle
            rintro rfl
            rw [hslots.ended] at htable
            cases htable
          rcases evictEntry_full hstray frame table hfull memoryPages 0 with
            ⟨-, hsame⟩ | ⟨hfull', -, htables⟩
          · rw [hsame]
            exact ih hfull hslots hmore (by omega)
          · exact ih hfull' (hslots.congr htables) hmore (by omega)

theorem full_of_filling {s : Paging} {c n i : Nat} (h : Filling s c n i 0) : Full s := by
  intro frame hlt
  refine Bool.not_eq_false _ ▸ fun hfree => ?_
  have hmem := mem_freeFrames.mpr ⟨hlt, hfree⟩
  rw [Finset.card_eq_zero.mp h.free] at hmem
  exact Finset.notMem_empty frame hmem

theorem filled_reachable {stray : Nat} (hstray : totalPages ≤ stray) (stray' : Nat) :
    ∃ s c i next, Reachable s ∧ s.scheduler.current = some c ∧ Full s ∧
      NeedsFrame s (.mapPage i) ∧ step stray stray' s (.mapPage i) = some next := by
  obtain ⟨s, c, n, i, h, hhigh⟩ := filling_full
  have hreach := h.run.reachable
  have hcurrent := h.fronted.current
  have hfull := full_of_filling h
  obtain ⟨htabled, hsteady⟩ := hreach.tabled
  obtain ⟨table, htable, -⟩ := htabled.table (hsteady.current_alive hcurrent)
  have hslot := pageTables_of_tableOf htable
  have hi : i < memoryPages := Nat.lt_trans hhigh lastPage_lt
  have hblank : s.cells (table + i) = unmapped :=
    (place_eq_none htable hi).mp (h.endsAt hhigh).ended
  have haway : s.cells (table + i) ≠ i := by
    rw [hblank]
    exact Nat.ne_of_gt (Nat.lt_trans (page_lt_total hi) (by decide))
  have hused := hfull i (page_lt_total hi)
  have hneeds : NeedsFrame s (.mapPage i) := by
    refine ⟨fun d other hd hother => ?_, ?_⟩
    · obtain rfl := Option.some.inj (hcurrent.symm.trans hd)
      obtain rfl := Option.some.inj (hslot.symm.trans hother)
      exact haway
    · obtain ⟨⟨t, q⟩, hplace⟩ := exists_of_not_vacant
        (((h.run.owned.framed.marks i).mp hused).resolve_right id)
      obtain ⟨other, hother, hq, hcell, -⟩ := place_eq_some.mp hplace
      exact ⟨t, other, q, pageTables_of_tableOf hother, hq, hcell⟩
  have hroom : s.scheduler.threadIDS < 0 + maxThreads := by
    rw [h.fronted.ids, Nat.zero_add]
    exact h.room
  obtain ⟨mid, hevict⟩ : ∃ mid, evict stray i s = some mid :=
    evictFrom_full_returns hstray maxThreads hfull htabled.slots (Nat.zero_le _) hroom
  have hmap : mapPage stray s table i =
      some (((mid.setCell (table + i) i).mark i true).protect i true) := by
    rw [mapPage, if_pos hi, if_neg fun hplaced => haway hplaced.2, if_pos hused, hevict]
    rfl
  exact ⟨s, c, i, _, hreach, hcurrent, hfull, hneeds, Option.bind_eq_some_iff.mpr
    ⟨c, hcurrent, Option.bind_eq_some_iff.mpr ⟨table, hslot, hmap⟩⟩⟩

/-- Every call that needs a frame loses data. -/
theorem full_loses {stray stray' : Nat} (hstray : totalPages ≤ stray) {s next : Paging}
    {c : Nat} {event : Event} (hreach : Reachable s) (hcurrent : s.scheduler.current = some c)
    (hadmitted : s.Admitted event) (hfull : Full s) (hneeds : NeedsFrame s event)
    (h : step stray stray' s event = some next) : ¬ Intact s next := by
  obtain ⟨htabled, hsteady⟩ := hreach.tabled
  obtain ⟨table, htable, -⟩ := htabled.table (hsteady.current_alive hcurrent)
  exact not_intact hreach (step_full hstray hfull htabled hsteady hcurrent htable
    (hreach.firstMapped c table htable) hadmitted hneeds h)

theorem full_loses_filled : ∃ s i next, Reachable s ∧ Full s ∧ NeedsFrame s (.mapPage i) ∧
    step totalPages totalPages s (.mapPage i) = some next ∧ ¬ Intact s next := by
  obtain ⟨s, c, i, next, hreach, hcurrent, hfull, hneeds, h⟩ :=
    filled_reachable (Nat.le_refl totalPages) totalPages
  have hadmitted : s.Admitted (.mapPage i) := trivial
  exact ⟨s, i, next, hreach, hfull, hneeds, h,
    full_loses (Nat.le_refl totalPages) hreach hcurrent hadmitted hfull hneeds h⟩

theorem full_not_intact : ¬ ∀ (stray stray' : Nat) (s next : Paging) (c : Nat) (event : Event),
    totalPages ≤ stray → totalPages ≤ stray' → Reachable s → s.scheduler.current = some c →
      s.Admitted event → Full s → NeedsFrame s event →
        step stray stray' s event = some next → Intact s next := by
  intro hintact
  obtain ⟨s, c, i, next, hreach, hcurrent, hfull, hneeds, h⟩ :=
    filled_reachable (Nat.le_refl totalPages) totalPages
  have hadmitted : s.Admitted (.mapPage i) := trivial
  obtain ⟨htabled, hsteady⟩ := hreach.tabled
  obtain ⟨table, htable, -⟩ := htabled.table (hsteady.current_alive hcurrent)
  have hlost := step_full (Nat.le_refl totalPages) hfull htabled hsteady hcurrent htable
    (hreach.firstMapped c table htable) hadmitted hneeds h
  exact not_intact hreach hlost
    (hintact totalPages totalPages s next c (.mapPage i) (Nat.le_refl _) (Nat.le_refl _) hreach
      hcurrent hadmitted hfull hneeds h)

end RutgersOS.Assignment2.Paging.Exhausted
