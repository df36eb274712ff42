import RutgersOS.Assignment2.Sentinels

namespace RutgersOS.Assignment2.Paging

open RutgersOS.Memory RutgersOS.Pthread

theorem takeFrame_marks {s next : Paging} {table offset cell : Nat}
    (hoffset : offset < totalPages) (h : s.takeFrame table offset cell = some next) :
    MarksFrames s next := by
  obtain ⟨frame, mid, hreleased, rfl⟩ := takeFrame_cases h
  exact (MarksFrames.of_released hreleased).trans (.of_mark hoffset rfl)

theorem scanTables_marks {table offset : Nat} (hoffset : offset < totalPages) (n : Nat) :
    ∀ {s next : Paging} {i : Nat}, scanTables table offset s i n = some next →
      MarksFrames s next := by
  induction n with
  | zero => exact nofun
  | succ n ih =>
      intro s next i h
      obtain ⟨other, -, ⟨j, mid, -, hmid, rfl⟩ | ⟨-, mid, hmid, hrest⟩⟩ := scanTables_cases h
      · have hmarks := takeFrame_marks hoffset hmid
        exact hmarks
      · apply MarksFrames.trans _ (ih hrest)
        rcases hmid with ⟨-, htake⟩ | ⟨-, rfl⟩
        · exact takeFrame_marks hoffset htake
        · exact .refl s

theorem touch_marks {s next : Paging} {address : Int} (h : s.touch address = some next) :
    MarksFrames s next := by
  obtain ⟨hlow, hhigh, ⟨-, rfl⟩ | ⟨-, hfault⟩⟩ := touch_cases h
  · exact .refl _
  · have hoffset : offsetOf address < totalPages :=
      Nat.lt_of_le_of_lt (page_of_touch hlow hhigh) (by decide)
    obtain ⟨t, -, hmid⟩ := Option.bind_eq_some_iff.mp hfault
    obtain ⟨table, -, hrest⟩ := Option.bind_eq_some_iff.mp hmid
    split at hrest
    · obtain rfl := Option.some.inj hrest
      exact .of_mark hoffset rfl
    · exact scanTables_marks hoffset _ hrest

theorem mapPage_marks {s next : Paging} {table i : Nat}
    (h : s.mapPage table i = some next) : MarksFrames s next := by
  obtain ⟨hi, ⟨-, -, rfl⟩ | ⟨mid, hmid, rfl⟩⟩ := mapPage_cases h
  · exact .refl _
  · have hevicted : MarksFrames s mid := by
      rcases hmid with ⟨-, -, hevict⟩ | ⟨-, rfl⟩
      · exact (evict_keeps hi hevict).2.marks
      · exact .refl _
    exact hevicted.trans (.of_mark (page_lt_total hi) rfl)

theorem releasePages_marks {table : Nat} (n : Nat) : ∀ {s next : Paging} {i : Nat},
    releasePages table s i n = some next → MarksFrames s next := by
  induction n with
  | zero => exact nofun
  | succ n ih =>
      intro s next i h
      rw [releasePages] at h
      split at h
      · obtain rfl := Option.some.inj h
        exact .refl s
      · exact (MarksFrames.of_unmarked (releasePage_unmarked s table i)).trans (ih h)

theorem releaseThread_marks {s next : Paging} {t : Nat} (h : s.releaseThread t = some next) :
    MarksFrames s next := by
  obtain ⟨table, -, hrest⟩ := Option.bind_eq_some_iff.mp h
  obtain ⟨mid, hmid, heq⟩ := Option.bind_eq_some_iff.mp hrest
  obtain rfl := Option.some.inj heq
  have hmarks := (releasePages_marks _ hmid).trans
    (.of_unmarked (releasePage_unmarked mid table lastPage))
  exact hmarks

theorem Started.marks {s mid : Paging} {stale : Int} {table first last : Nat}
    (h : Started s mid stale table first last) : MarksFrames s mid := by
  obtain ⟨hlt, hlast⟩ := h.frames
  intro frame hbeyond hfree
  rw [h.masterTable, Function.update_of_ne (by omega), Function.update_of_ne (by omega)]
  exact hfree

theorem step_marks {s next : Paging} {event : Event} {current : Nat} (htabled : s.Tabled)
    (hsteady : s.scheduler.Steady) (hcurrent : s.scheduler.current = some current)
    (hadmitted : s.Admitted event) (h : s.step event = some next) : MarksFrames s next := by
  have hyields : ∀ {mid}, YieldsFrom s event mid → MarksFrames s mid →
      mid.myPthreadYield = some next → MarksFrames s next := by
    intro mid hfrom hmarks hyield
    obtain ⟨hpending, htabled', -⟩ := hfrom.spec htabled hsteady hcurrent hadmitted
    exact hmarks.trans (yield_keeps hpending htabled' hyield).marks
  cases event with
  | create stale table beside beside' =>
      obtain ⟨mid, hmid, hyield⟩ := Option.bind_eq_some_iff.mp h
      obtain ⟨first, last, hstarted⟩ := startThread_spec hmid
      exact hyields (.create hmid) hstarted.marks hyield
  | yield => exact hyields .yield (.refl s) h
  | exit valuePtr =>
      obtain ⟨mid, hmid, hyield⟩ := Option.bind_eq_some_iff.mp h
      obtain ⟨hsame, -⟩ := leave_spec hsteady hcurrent hmid
      exact hyields (.exit hmid) (.of_eq hsame.masterTable) hyield
  | join thread =>
      rcases join_cases h with hyield | ⟨hrelease, -⟩
      · exact hyields (.join thread) (.refl s) hyield
      · exact releaseThread_marks hrelease
  | load address => exact touch_marks h
  | store address byte =>
      obtain ⟨mid, hmid, heq⟩ := Option.bind_eq_some_iff.mp h
      obtain rfl := Option.some.inj heq
      have hmarks := touch_marks hmid
      exact hmarks
  | setValue p size allocation =>
      obtain ⟨after, hafter, heq⟩ := Option.bind_eq_some_iff.mp h
      obtain rfl := Option.some.inj heq
      obtain ⟨mid, hmid, hlast⟩ := Option.bind_eq_some_iff.mp hafter
      have hmarks := (touch_marks hmid).trans (touch_marks hlast)
      exact hmarks
  | mapPage i =>
      obtain ⟨t, table, -, -, hmap⟩ := mapEvent_cases h
      exact mapPage_marks hmap
  | reuse cell value =>
      obtain rfl := Option.some.inj h
      exact .refl s

theorem Reachable.unmarked {s : Paging} (h : Reachable s) :
    ∀ frame, totalPages ≤ frame → s.masterTable frame = false := by
  induction h with
  | start memory swapFile cells table stale =>
      intro frame hbeyond
      have hlimit : totalPages = 5632 := rfl
      have hlast : lastPage = 1535 := rfl
      refine decide_eq_false fun hor => ?_
      rcases hor with hzero | heq
      · omega
      · change frame = lastPage at heq
        omega
  | step event hrun hcurrent hadmitted hstep ih =>
      obtain ⟨htabled, hsteady⟩ := hrun.tabled
      intro frame hbeyond
      exact step_marks htabled hsteady hcurrent hadmitted hstep frame hbeyond (ih frame hbeyond)

def FirstMapped (s : Paging) : Prop :=
  ∀ t table, s.tableOf t = some table → s.cells table ≠ unmapped

theorem Rewrites.firstMapped {s next : Paging} (h : Rewrites s next)
    (hfirst : s.FirstMapped) : next.FirstMapped := by
  intro t table htable hblank
  rw [h.tableOf] at htable
  exact hfirst t table htable (h.blank hblank)

theorem Rescheduled.firstMapped {s mid : Paging} (h : Rescheduled s mid)
    (hfirst : s.FirstMapped) : mid.FirstMapped := by
  intro t table htable
  rw [h.table] at htable
  rw [h.cells]
  exact hfirst t table htable

theorem yield_firstMapped {s next : Paging} (hpending : s.scheduler.Pending)
    (hfirst : s.FirstMapped) (h : s.myPthreadYield = some next) : next.FirstMapped := by
  obtain ⟨scheduler, switch, -, hyields, -, hpages⟩ := yield_cases hpending h
  apply (switchPages_rewrites hpages).firstMapped
  exact (rescheduled_threads hyields.threads hyields.threadIDS).firstMapped hfirst

theorem Started.firstMapped {s mid : Paging} {stale : Int} {table first last c : Nat}
    (h : Started s mid stale table first last) (hsteady : s.scheduler.Steady)
    (hcurrent : s.scheduler.current = some c)
    (hadmitted : ∀ t other, s.tableOf t = some other →
      table + memoryPages ≤ other ∨ other + memoryPages ≤ table)
    (hfirst : s.FirstMapped) : mid.FirstMapped := by
  have hpages : memoryPages = 1536 := rfl
  intro t other hother
  rw [h.tableOf hsteady hcurrent] at hother
  rw [h.cells]
  split at hother
  · obtain rfl := Option.some.inj hother
    have hne : table ≠ table + lastPage := Nat.ne_of_lt (Nat.lt_add_of_pos_right (by decide))
    rw [newTable, if_neg fun hin => Nat.lt_irrefl _ hin.1, if_neg hne, if_pos rfl]
    exact lt_unmapped (nextFreePage_spec h.firstFree).1
  · have hapart := hadmitted t other hother
    rw [newTable_outside (by omega)]
    exact hfirst t other hother

/-- Nothing ever unmaps a page. -/
theorem Reachable.firstMapped {s : Paging} (h : Reachable s) : s.FirstMapped := by
  induction h with
  | start memory swapFile cells table stale =>
      intro t other hother
      rw [initializeMemory_tableOf] at hother
      split at hother
      · obtain rfl := Option.some.inj hother
        have hcell := initializeMemory_cells memory swapFile cells table stale
          (by decide : 0 < memoryPages)
        rw [Nat.add_zero] at hcell
        rw [hcell]
        decide
      · cases hother
  | @step s next current event hrun hcurrent hadmitted hstep ih =>
      obtain ⟨htabled, hsteady⟩ := hrun.tabled
      cases event with
      | create stale table beside beside' =>
          obtain ⟨mid, hmid, hyield⟩ := Option.bind_eq_some_iff.mp hstep
          obtain ⟨first, last, hstarted⟩ := startThread_spec hmid
          exact yield_firstMapped (hstarted.scheduler hsteady hcurrent).1
            (hstarted.firstMapped hsteady hcurrent hadmitted ih) hyield
      | yield => exact yield_firstMapped hsteady.pending ih hstep
      | exit valuePtr =>
          obtain ⟨mid, hmid, hyield⟩ := Option.bind_eq_some_iff.mp hstep
          obtain ⟨hsame, hpending, -⟩ := leave_spec hsteady hcurrent hmid
          exact yield_firstMapped hpending (hsame.firstMapped ih) hyield
      | join thread =>
          rcases join_cases hstep with hyield | ⟨hrelease, -⟩
          · exact yield_firstMapped hsteady.pending ih hyield
          · have hforgotten := releaseThread_forgotten hrelease
            intro t table htable
            rw [hforgotten.tableOf] at htable
            rw [hforgotten.cells]
            split at htable
            · cases htable
            · exact ih t table htable
      | load address =>
          exact (access_rewrites hstep (Or.inl ⟨address, rfl⟩)).firstMapped ih
      | store address byte =>
          exact (access_rewrites hstep (Or.inr (Or.inl ⟨address, byte, rfl⟩))).firstMapped ih
      | setValue p size allocation =>
          exact (access_rewrites hstep
            (Or.inr (Or.inr ⟨p, size, allocation, rfl⟩))).firstMapped ih
      | mapPage i =>
          obtain ⟨t, table, -, -, hmap⟩ := mapEvent_cases hstep
          exact (mapPage_rewrites hmap).firstMapped ih
      | reuse cell value =>
          obtain rfl := Option.some.inj hstep
          intro t table htable
          have hne : table ≠ cell := by
            rintro rfl
            exact hadmitted ⟨t, table, 0, htable, by decide, rfl⟩
          change Function.update s.cells cell value table ≠ unmapped
          rw [Function.update_of_ne hne]
          exact ih t table htable

end RutgersOS.Assignment2.Paging
