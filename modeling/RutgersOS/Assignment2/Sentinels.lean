import RutgersOS.Assignment2.NewHeap
import RutgersOS.Assignment2.Scans

namespace RutgersOS.Assignment2.Paging

open RutgersOS.Memory RutgersOS.Pthread

inductive Accesses (s : Paging) : Event → Paging → Int → Prop
  | load (address : Int) : Accesses s (.load address) s address
  | store (address : Int) (byte : UInt8) : Accesses s (.store address byte) s address
  | first (p size allocation : Int) : Accesses s (.setValue p size allocation) s p
  | last {p : Int} {mid : Paging} (size allocation : Int) (h : s.touch p = some mid) :
      Accesses s (.setValue p size allocation) mid (p + 3)

/-- The access raises a fault, which maps the page of the running thread. -/
structure Faults (s : Paging) (address : Int) (table : Nat) : Prop where
  low : 0 ≤ address
  high : address < usrSize + pageSize
  closed : s.accessible (address / pageSize).toNat = false
  current : ∃ t, s.scheduler.current = some t ∧ s.pageTables t = some table

def offsetOf (address : Int) : Nat :=
  (address / pageSize).toNat

/-- The entry in `cell` is unmapped once the call is done. -/
def Remains (s : Paging) (event : Event) (cell : Nat) : Prop :=
  match event with
  | .create _ table _ _ => table < cell ∧ cell < table + lastPage ∨
      s.cells cell = unmapped ∧ cell ≠ table ∧ cell ≠ table + lastPage
  | .mapPage i => s.cells cell = unmapped ∧ ∀ t table, s.scheduler.current = some t →
      s.pageTables t = some table → cell ≠ table + i
  | .reuse other value => Function.update s.cells other value cell = unmapped
  | event => s.cells cell = unmapped ∧ ∀ mid address table, s.Accesses event mid address →
      mid.Faults address table → cell ≠ table + offsetOf address

/-- Every table keeps an unmapped entry. -/
def Leaves (s : Paging) (event : Event) : Prop :=
  ∀ t table, s.pageTables t = some table → ∃ k, k ≤ lastPage ∧ s.Remains event (table + k)

section Fault

variable {s next : Paging} {table offset cell : Nat}

theorem takeFrame_maps {entry : Nat} (hoffset : offset < totalPages)
    (h : s.takeFrame table offset entry = some next) :
    next.cells (table + offset) ≠ unmapped := by
  obtain ⟨frame, mid, -, rfl⟩ := takeFrame_cases h
  change Function.update mid.cells (table + offset) offset (table + offset) ≠ unmapped
  rw [Function.update_self]
  exact lt_unmapped hoffset

theorem takeFrame_keeps {entry : Nat} (hoffset : offset < totalPages)
    (hentry : s.cells entry = offset) (hne : cell ≠ table + offset)
    (h : s.takeFrame table offset entry = some next) (hblank : s.cells cell = unmapped) :
    next.cells cell = unmapped := by
  obtain ⟨frame, mid, hreleased, rfl⟩ := takeFrame_cases h
  change Function.update mid.cells (table + offset) offset cell = unmapped
  rw [Function.update_of_ne hne]
  have hmapped : s.cells entry ≠ unmapped := by
    rw [hentry]
    exact lt_unmapped hoffset
  have hkeeps := Keeps.of_update hreleased.cells hmapped (.of_released hreleased)
  exact hkeeps.blank cell hblank

theorem scanTables_keeps (hoffset : offset < totalPages) (hne : cell ≠ table + offset)
    (n : Nat) : ∀ {s next : Paging} {i : Nat}, scanTables table offset s i n = some next →
      s.cells cell = unmapped → next.cells cell = unmapped := by
  induction n with
  | zero => exact nofun
  | succ n ih =>
      intro s next i h hblank
      obtain ⟨other, -, ⟨j, mid, hfound, hmid, rfl⟩ | ⟨-, mid, hmid, hrest⟩⟩ :=
        scanTables_cases h
      · obtain ⟨-, -, hentry⟩ := scanEntries_found _ hfound
        have hkept := takeFrame_keeps hoffset hentry hne hmid hblank
        exact hkept
      · apply ih hrest
        rcases hmid with ⟨hentry, htake⟩ | ⟨-, rfl⟩
        · exact takeFrame_keeps hoffset hentry hne htake hblank
        · exact hblank

theorem scanTables_maps (hoffset : offset < totalPages) (n : Nat) :
    ∀ {s next : Paging} {i : Nat}, scanTables table offset s i n = some next →
      next.cells (table + offset) ≠ unmapped := by
  induction n with
  | zero => exact nofun
  | succ n ih =>
      intro s next i h
      obtain ⟨other, -, ⟨j, mid, -, hmid, rfl⟩ | ⟨-, mid, -, hrest⟩⟩ := scanTables_cases h
      · have hmapped := takeFrame_maps hoffset hmid
        exact hmapped
      · exact ih hrest

end Fault

theorem touch_blank_iff {s next : Paging} {address : Int} (h : s.touch address = some next)
    (cell : Nat) : next.cells cell = unmapped ↔ s.cells cell = unmapped ∧
      ∀ table, s.Faults address table → cell ≠ table + offsetOf address := by
  have hrewrites := touch_rewrites h
  obtain ⟨hlow, hhigh, ⟨hopen, rfl⟩ | ⟨hclosed, hsegv⟩⟩ := touch_cases h
  · refine ⟨fun hblank => ⟨hblank, fun table hfault => ?_⟩, fun hblank => hblank.1⟩
    rw [hfault.closed] at hopen
    cases hopen
  · have hoffset : offsetOf address < totalPages :=
      Nat.lt_of_le_of_lt (page_of_touch hlow hhigh) (by decide)
    obtain ⟨t, hcurrent, hmid⟩ := Option.bind_eq_some_iff.mp hsegv
    obtain ⟨table, htable, hrest⟩ := Option.bind_eq_some_iff.mp hmid
    have hfault : s.Faults address table := ⟨hlow, hhigh, hclosed, t, hcurrent, htable⟩
    have hmaps : next.cells (table + offsetOf address) ≠ unmapped ∧
        ∀ cell, cell ≠ table + offsetOf address → s.cells cell = unmapped →
          next.cells cell = unmapped := by
      split at hrest
      · obtain rfl := Option.some.inj hrest
        constructor
        · change Function.update s.cells (table + offsetOf address) (offsetOf address)
            (table + offsetOf address) ≠ unmapped
          rw [Function.update_self]
          exact lt_unmapped hoffset
        · intro cell hne hblank
          exact (Function.update_of_ne hne _ _).trans hblank
      · exact ⟨scanTables_maps hoffset _ hrest,
          fun cell hne => scanTables_keeps hoffset hne _ hrest⟩
    constructor
    · intro hblank
      refine ⟨hrewrites.blank hblank, fun other hfault' => ?_⟩
      obtain ⟨t', hcurrent', hother⟩ := hfault'.current
      obtain rfl := Option.some.inj (hcurrent.symm.trans hcurrent')
      obtain rfl := Option.some.inj (htable.symm.trans hother)
      rintro rfl
      exact hmaps.1 hblank
    · rintro ⟨hblank, hother⟩
      exact hmaps.2 cell (hother table hfault) hblank

theorem newTable_blank_iff {cells : Nat → Nat} {table first last cell : Nat}
    (hfirst : first < totalPages) (hlast : last < totalPages) :
    newTable cells table first last cell = unmapped ↔
      table < cell ∧ cell < table + lastPage ∨
        cells cell = unmapped ∧ cell ≠ table ∧ cell ≠ table + lastPage := by
  unfold newTable
  split
  · next hin => exact iff_of_true rfl (Or.inl hin)
  · next hout =>
      split
      · next heq =>
          apply iff_of_false (lt_unmapped hlast)
          rintro (hin | ⟨-, -, hne⟩)
          · exact hout hin
          · exact hne heq
      · next hne =>
          split
          · next heq =>
              apply iff_of_false (lt_unmapped hfirst)
              rintro (hin | ⟨-, hne', -⟩)
              · exact hout hin
              · exact hne' heq
          · next hne' =>
              exact ⟨fun hblank => Or.inr ⟨hblank, hne', hne⟩,
                fun hor => (hor.resolve_left hout).1⟩

theorem Started.blank_iff {s mid : Paging} {stale : Int} {table first last : Nat}
    (h : Started s mid stale table first last) (beside beside' : BitVec 32) (cell : Nat) :
    mid.cells cell = unmapped ↔ s.Remains (.create stale table beside beside') cell := by
  rw [h.cells]
  exact newTable_blank_iff (Nat.lt_trans h.frames.1 h.frames.2) h.frames.2

theorem mapPage_blank_iff {s next : Paging} {table i : Nat}
    (h : s.mapPage table i = some next) (cell : Nat) :
    next.cells cell = unmapped ↔ s.cells cell = unmapped ∧ cell ≠ table + i := by
  obtain ⟨hi, ⟨-, hplaced, rfl⟩ | ⟨mid, hmid, rfl⟩⟩ := mapPage_cases h
  · refine ⟨fun hblank => ⟨hblank, ?_⟩, And.left⟩
    rintro rfl
    exact lt_unmapped (page_lt_total hi) (hplaced.symm.trans hblank)
  · have hevicted : Rewrites s mid ∧ Keeps s mid := by
      rcases hmid with ⟨-, -, hevict⟩ | ⟨-, rfl⟩
      · exact evict_keeps hi hevict
      · exact ⟨.refl _, .refl _⟩
    change Function.update mid.cells (table + i) i cell = unmapped ↔ _
    rcases Classical.em (cell = table + i) with rfl | hne
    · rw [Function.update_self]
      exact iff_of_false (lt_unmapped (page_lt_total hi)) fun h => h.2 rfl
    · rw [Function.update_of_ne hne]
      exact ⟨fun hblank => ⟨hevicted.1.blank hblank, hne⟩, fun h => hevicted.2.blank cell h.1⟩

theorem access_blank_iff {s next : Paging} {event : Event} (h : s.step event = some next)
    (haccess : (∃ address, event = .load address) ∨
      (∃ address byte, event = .store address byte) ∨
      ∃ p size allocation, event = .setValue p size allocation) (cell : Nat) :
    next.cells cell = unmapped ↔ s.Remains event cell := by
  rcases haccess with ⟨address, rfl⟩ | ⟨address, byte, rfl⟩ | ⟨p, size, allocation, rfl⟩
  · rw [touch_blank_iff h cell]
    apply and_congr_right
    intro _
    constructor
    · rintro hfaults mid other table ⟨⟩ hfault
      exact hfaults table hfault
    · exact fun hfaults table hfault => hfaults s address table (.load address) hfault
  · obtain ⟨mid, hmid, heq⟩ := Option.bind_eq_some_iff.mp h
    obtain rfl := Option.some.inj heq
    change mid.cells cell = unmapped ↔ _
    rw [touch_blank_iff hmid cell]
    apply and_congr_right
    intro _
    constructor
    · rintro hfaults mid other table ⟨⟩ hfault
      exact hfaults table hfault
    · exact fun hfaults table hfault => hfaults s address table (.store address byte) hfault
  · obtain ⟨after, hafter, heq⟩ := Option.bind_eq_some_iff.mp h
    obtain rfl := Option.some.inj heq
    obtain ⟨mid, hmid, hlast⟩ := Option.bind_eq_some_iff.mp hafter
    change after.cells cell = unmapped ↔ _
    rw [touch_blank_iff hlast cell, touch_blank_iff hmid cell, and_assoc]
    apply and_congr_right
    intro _
    constructor
    · rintro ⟨hfirst, hsecond⟩ other address table haccess hfault
      cases haccess with
      | first => exact hfirst table hfault
      | last _ _ hother =>
          obtain rfl := Option.some.inj (hmid.symm.trans hother)
          exact hsecond table hfault
    · intro hfaults
      exact ⟨fun table hfault => hfaults s p table (.first p size allocation) hfault,
        fun table hfault => hfaults mid (p + 3) table (.last size allocation hmid) hfault⟩

theorem remains_quiet {s : Paging} {event : Event} {cell : Nat}
    (hquiet : event = .yield ∨ (∃ v, event = .exit v) ∨ ∃ t, event = .join t) :
    s.Remains event cell ↔ s.cells cell = unmapped := by
  rcases hquiet with rfl | ⟨v, rfl⟩ | ⟨t, rfl⟩
  · exact ⟨And.left, fun hblank => ⟨hblank, nofun⟩⟩
  · exact ⟨And.left, fun hblank => ⟨hblank, nofun⟩⟩
  · exact ⟨And.left, fun hblank => ⟨hblank, nofun⟩⟩

/-- The state that a call yields in. -/
inductive YieldsFrom (s : Paging) : Event → Paging → Prop
  | yield : YieldsFrom s .yield s
  | join (thread : Nat) : YieldsFrom s (.join thread) s
  | create {mid : Paging} {stale : Int} {table : Nat} {beside beside' : BitVec 32}
      (h : s.startThread stale table beside beside' = some mid) :
      YieldsFrom s (.create stale table beside beside') mid
  | exit {mid : Paging} {valuePtr : Int} (h : s.leave valuePtr = some mid) :
      YieldsFrom s (.exit valuePtr) mid

section Call

variable {s next mid : Paging} {event : Event} {current : Nat}
  (htabled : s.Tabled) (hsteady : s.scheduler.Steady)
  (hcurrent : s.scheduler.current = some current) (hadmitted : s.Admitted event)

include htabled hsteady hcurrent hadmitted

theorem YieldsFrom.spec (h : YieldsFrom s event mid) :
    mid.scheduler.Pending ∧ mid.Tabled ∧
      (∀ cell, mid.cells cell = unmapped ↔ s.Remains event cell) ∧
      ∀ t table, mid.pageTables t = some table →
        s.pageTables t = some table ∨ mid.Ended table := by
  cases h with
  | yield =>
      exact ⟨hsteady.pending, htabled, fun cell => (remains_quiet (Or.inl rfl)).symm,
        fun t table => Or.inl⟩
  | join thread =>
      exact ⟨hsteady.pending, htabled,
        fun cell => (remains_quiet (Or.inr (Or.inr ⟨thread, rfl⟩))).symm,
        fun t table => Or.inl⟩
  | @create mid stale table beside beside' hstart =>
      obtain ⟨first, last, hstarted⟩ := startThread_spec hstart
      refine ⟨(hstarted.scheduler hsteady hcurrent).1,
        hstarted.tabled hsteady hcurrent hadmitted htabled,
        hstarted.blank_iff beside beside', ?_⟩
      intro t other hother
      rw [hstarted.pageTables] at hother
      rcases Classical.em (t = s.scheduler.threadIDS) with rfl | hne
      · rw [Function.update_self] at hother
        obtain rfl := Option.some.inj hother
        have hsecond : table + 1 < table + lastPage := Nat.add_lt_add_left (by decide) table
        refine Or.inr ⟨1, by decide, ?_⟩
        rw [hstarted.cells, newTable, if_pos ⟨Nat.lt_succ_self _, hsecond⟩]
      · rw [Function.update_of_ne hne] at hother
        exact Or.inl hother
  | exit hleave =>
      obtain ⟨hsame, hpending, -⟩ := leave_spec hsteady hcurrent hleave
      refine ⟨hpending, hsame.tabled htabled, ?_, ?_⟩
      · intro cell
        rw [hsame.cells]
        exact (remains_quiet (Or.inr (Or.inl ⟨_, rfl⟩))).symm
      · intro t table htable
        rw [hsame.pageTables] at htable
        exact Or.inl htable

theorem YieldsFrom.tables (h : YieldsFrom s event mid) {t table : Nat}
    (htable : s.pageTables t = some table) : mid.pageTables t = some table := by
  cases h with
  | yield => exact htable
  | join thread => exact htable
  | create hstart =>
      obtain ⟨first, last, hstarted⟩ := startThread_spec hstart
      rw [hstarted.pageTables, Function.update_of_ne]
      · exact htable
      · rintro rfl
        rw [htabled.beyond _ (Nat.le_refl _)] at htable
        cases htable
  | exit hleave =>
      obtain ⟨hsame, -⟩ := leave_spec hsteady hcurrent hleave
      rw [hsame.pageTables]
      exact htable

/-- Exactly the entries that a call leaves are unmapped after it. -/
theorem step_blank_iff (h : s.step event = some next) (cell : Nat) :
    next.cells cell = unmapped ↔ s.Remains event cell := by
  have hyields : ∀ {mid}, YieldsFrom s event mid → mid.myPthreadYield = some next →
      (next.cells cell = unmapped ↔ s.Remains event cell) := by
    intro mid hfrom hyield
    obtain ⟨hpending, htabled', hblank, -⟩ := hfrom.spec htabled hsteady hcurrent hadmitted
    obtain ⟨scheduler, switch, -, -, -, hpages⟩ := yield_cases hpending hyield
    rw [← hblank cell]
    exact ⟨(switchPages_rewrites hpages).blank, (yield_keeps hpending htabled' hyield).blank cell⟩
  cases event with
  | create stale table beside beside' =>
      obtain ⟨mid, hmid, hyield⟩ := Option.bind_eq_some_iff.mp h
      exact hyields (.create hmid) hyield
  | yield => exact hyields .yield h
  | exit valuePtr =>
      obtain ⟨mid, hmid, hyield⟩ := Option.bind_eq_some_iff.mp h
      exact hyields (.exit hmid) hyield
  | join thread =>
      rcases join_cases h with hyield | ⟨hrelease, -⟩
      · exact hyields (.join thread) hyield
      · rw [(releaseThread_forgotten hrelease).cells]
        exact (remains_quiet (Or.inr (Or.inr ⟨thread, rfl⟩))).symm
  | load address => exact access_blank_iff h (Or.inl ⟨address, rfl⟩) cell
  | store address byte =>
      exact access_blank_iff h (Or.inr (Or.inl ⟨address, byte, rfl⟩)) cell
  | setValue p size allocation =>
      exact access_blank_iff h (Or.inr (Or.inr ⟨p, size, allocation, rfl⟩)) cell
  | mapPage i =>
      obtain ⟨t, table, ht, htable, hmap⟩ := mapEvent_cases h
      rw [mapPage_blank_iff hmap]
      apply and_congr_right
      intro _
      constructor
      · intro hne u other hu hother
        obtain rfl := Option.some.inj (ht.symm.trans hu)
        obtain rfl := Option.some.inj (htable.symm.trans hother)
        exact hne
      · exact fun hall => hall t table ht htable
  | reuse other value =>
      obtain rfl := Option.some.inj h
      exact Iff.rfl

theorem step_tables (h : s.step event = some next) :
    (∀ t table, s.pageTables t = some table → next.pageTables t = some table) ∧
      ∀ t table, next.pageTables t = some table →
        s.pageTables t = some table ∨ next.Ended table := by
  have hsame : next.pageTables = s.pageTables →
      (∀ t table, s.pageTables t = some table → next.pageTables t = some table) ∧
        ∀ t table, next.pageTables t = some table →
          s.pageTables t = some table ∨ next.Ended table := by
    intro heq
    rw [heq]
    exact ⟨fun _ _ => id, fun _ _ => Or.inl⟩
  have hyields : ∀ {mid}, YieldsFrom s event mid → mid.myPthreadYield = some next →
      (∀ t table, s.pageTables t = some table → next.pageTables t = some table) ∧
        ∀ t table, next.pageTables t = some table →
          s.pageTables t = some table ∨ next.Ended table := by
    intro mid hfrom hyield
    obtain ⟨hpending, htabled', -, hnew⟩ := hfrom.spec htabled hsteady hcurrent hadmitted
    obtain ⟨scheduler, switch, -, -, -, hpages⟩ := yield_cases hpending hyield
    have hkeeps := yield_keeps hpending htabled' hyield
    rw [(switchPages_rewrites hpages).pageTables]
    refine ⟨fun t table => hfrom.tables htabled hsteady hcurrent hadmitted, ?_⟩
    intro t table htable
    apply (hnew t table htable).imp_right
    rintro ⟨k, hk, hblank⟩
    exact ⟨k, hk, hkeeps.blank _ hblank⟩
  cases event with
  | create stale table beside beside' =>
      obtain ⟨mid, hmid, hyield⟩ := Option.bind_eq_some_iff.mp h
      exact hyields (.create hmid) hyield
  | yield => exact hyields .yield h
  | exit valuePtr =>
      obtain ⟨mid, hmid, hyield⟩ := Option.bind_eq_some_iff.mp h
      exact hyields (.exit hmid) hyield
  | join thread =>
      rcases join_cases h with hyield | ⟨hrelease, -⟩
      · exact hyields (.join thread) hyield
      · exact hsame (releaseThread_forgotten hrelease).pageTables
  | load address => exact hsame (access_rewrites h (Or.inl ⟨address, rfl⟩)).pageTables
  | store address byte =>
      exact hsame (access_rewrites h (Or.inr (Or.inl ⟨address, byte, rfl⟩))).pageTables
  | setValue p size allocation =>
      exact hsame (access_rewrites h
        (Or.inr (Or.inr ⟨p, size, allocation, rfl⟩))).pageTables
  | mapPage i =>
      obtain ⟨t, table, -, -, hmap⟩ := mapEvent_cases h
      exact hsame (mapPage_rewrites hmap).pageTables
  | reuse other value =>
      obtain rfl := Option.some.inj h
      exact hsame rfl

/-- After a call every scan stops inside its table if and only if the call left an
unmapped entry in each. -/
theorem step_scansInside_iff (h : s.step event = some next) :
    next.ScansInside ↔ s.Leaves event := by
  have hblank := step_blank_iff htabled hsteady hcurrent hadmitted h
  obtain ⟨hkept, hnew⟩ := step_tables htabled hsteady hcurrent hadmitted h
  rw [scansInside_iff]
  constructor
  · intro hended t table htable
    obtain ⟨k, hk, hend⟩ := hended t table (hkept t table htable)
    exact ⟨k, hk, (hblank (table + k)).mp hend⟩
  · intro hleaves t table htable
    rcases hnew t table htable with hold | hended
    · obtain ⟨k, hk, hremains⟩ := hleaves t table hold
      exact ⟨k, hk, (hblank (table + k)).mpr hremains⟩
    · exact hended

end Call

/-- `seg_handler` goes on to the next table after it has taken a last page. -/
inductive Searched (table offset : Nat) (s : Paging) : Paging → Prop
  | start : Searched table offset s s
  | passed {mid next : Paging} {t other : Nat} (h : Searched table offset s mid)
      (hother : mid.pageTables t = some other)
      (hentry : mid.cells (other + lastPage) = offset)
      (htake : mid.takeFrame table offset (other + lastPage) = some next) :
      Searched table offset s next

inductive Stage (s : Paging) (event : Event) : Paging → Prop
  | start : Stage s event s
  | accessed {mid : Paging} {address : Int} (h : s.Accesses event mid address) :
      Stage s event mid
  | searched {mid after : Paging} {address : Int} {table : Nat}
      (h : s.Accesses event mid address) (hfault : mid.Faults address table)
      (hsearch : Searched table (offsetOf address) mid after) : Stage s event after
  | yields {mid : Paging} (h : YieldsFrom s event mid) : Stage s event mid
  | swapped {mid after : Paging} {scheduler : Scheduler} {t u table : Nat}
      (h : YieldsFrom s event mid)
      (hyield : mid.scheduler.myPthreadYield = some (scheduler, .swap t u))
      (htable : mid.pageTables t = some table)
      (hout : switchOut { mid with scheduler := scheduler } table = some after) :
      Stage s event after

theorem Searched.keeps {s next : Paging} {table offset : Nat}
    (h : Searched table offset s next) (hoffset : offset < totalPages) :
    next.pageTables = s.pageTables ∧ ∀ cell, cell ≠ table + offset →
      s.cells cell = unmapped → next.cells cell = unmapped := by
  induction h with
  | start => exact ⟨rfl, fun _ _ => id⟩
  | passed h hother hentry htake ih =>
      obtain ⟨htables, hkeeps⟩ := ih
      refine ⟨(takeFrame_rewrites hoffset htake).pageTables.trans htables, ?_⟩
      intro cell hne hblank
      exact takeFrame_keeps hoffset hentry hne htake (hkeeps cell hne hblank)

theorem Accesses.remains {s mid : Paging} {event : Event} {address : Int}
    (h : s.Accesses event mid address) :
    mid.pageTables = s.pageTables ∧ ∀ cell, s.Remains event cell →
      mid.cells cell = unmapped ∧ ∀ table, mid.Faults address table →
        cell ≠ table + offsetOf address := by
  cases h with
  | load =>
      exact ⟨rfl, fun cell hremains => ⟨hremains.1,
        fun table => hremains.2 s address table (.load address)⟩⟩
  | store _ byte =>
      exact ⟨rfl, fun cell hremains => ⟨hremains.1,
        fun table => hremains.2 s address table (.store address byte)⟩⟩
  | first _ size allocation =>
      exact ⟨rfl, fun cell hremains => ⟨hremains.1,
        fun table => hremains.2 s address table (.first address size allocation)⟩⟩
  | @last p _ size allocation hmid =>
      refine ⟨(touch_rewrites hmid).pageTables, fun cell hremains => ⟨?_, ?_⟩⟩
      · rw [touch_blank_iff hmid]
        exact ⟨hremains.1, fun table => hremains.2 s p table (.first p size allocation)⟩
      · exact fun table => hremains.2 mid (p + 3) table (.last size allocation hmid)

theorem Stage.scansInside {s mid : Paging} {event : Event} {current : Nat}
    (h : s.Stage event mid) (hinside : s.ScansInside) (htabled : s.Tabled)
    (hsteady : s.scheduler.Steady) (hcurrent : s.scheduler.current = some current)
    (hadmitted : s.Admitted event) (hleaves : s.Leaves event) : mid.ScansInside := by
  have hfrom : ∀ {mid}, YieldsFrom s event mid →
      ∀ t table, mid.pageTables t = some table → mid.Ended table := by
    intro mid hfrom t table htable
    obtain ⟨-, -, hblank, hnew⟩ := hfrom.spec htabled hsteady hcurrent hadmitted
    rcases hnew t table htable with hold | hended
    · obtain ⟨k, hk, hremains⟩ := hleaves t table hold
      exact ⟨k, hk, (hblank (table + k)).mpr hremains⟩
    · exact hended
  cases h with
  | start => exact hinside
  | accessed haccess =>
      obtain ⟨htables, hremains⟩ := haccess.remains
      rw [scansInside_iff, htables]
      intro t table htable
      obtain ⟨k, hk, hleft⟩ := hleaves t table htable
      exact ⟨k, hk, (hremains (table + k) hleft).1⟩
  | @searched mid _ address _ haccess hfault hsearch =>
      obtain ⟨htables, hremains⟩ := haccess.remains
      have hoffset : offsetOf address < totalPages :=
        Nat.lt_of_le_of_lt (page_of_touch hfault.low hfault.high) (by decide)
      obtain ⟨htables', hkeeps⟩ := hsearch.keeps hoffset
      rw [scansInside_iff, htables', htables]
      intro t table htable
      obtain ⟨k, hk, hleft⟩ := hleaves t table htable
      obtain ⟨hblank, hne⟩ := hremains (table + k) hleft
      exact ⟨k, hk, hkeeps _ (hne _ hfault) hblank⟩
  | yields hyields => exact scansInside_iff.mpr (hfrom hyields)
  | @swapped mid _ scheduler u v table hyields hyield htable hout =>
      obtain ⟨hpending, htabled', -⟩ := hyields.spec htabled hsteady hcurrent hadmitted
      obtain ⟨other, switch, hother, hhands, -⟩ := hpending.yields
      obtain ⟨rfl, rfl⟩ := Prod.mk.inj (Option.some.inj (hyield.symm.trans hother))
      have halive : mid.scheduler.Alive u := by
        cases hhands.hands with
        | swap _ hgone _ _ => exact hgone
      have hlast := htabled'.lastEntry halive htable
      have hkeeps : Keeps mid _ := .of_scheduler scheduler (switchOut_keeps hlast hout)
      rw [scansInside_iff, (switchOut_rewrites hout).pageTables]
      intro t other hslot
      obtain ⟨k, hk, hblank⟩ := hfrom hyields t other hslot
      exact ⟨k, hk, hkeeps.blank _ hblank⟩

inductive LeavingRun : Paging → Prop
  | start (memory swapFile : Bytes) (cells : Nat → Nat) (table : Nat) (stale : Int) :
      LeavingRun (initializeMemory memory swapFile cells table stale)
  | step {s next : Paging} {current : Nat} (event : Event) : LeavingRun s →
      s.scheduler.current = some current → s.Admitted event → s.Leaves event →
        s.step event = some next → LeavingRun next

theorem LeavingRun.reachable {s : Paging} (h : LeavingRun s) : Reachable s := by
  induction h with
  | start memory swapFile cells table stale => exact .start memory swapFile cells table stale
  | step event _ hcurrent hadmitted _ hstep ih => exact .step event ih hcurrent hadmitted hstep

theorem initializeMemory_scansInside (memory swapFile : Bytes) (cells : Nat → Nat)
    (table : Nat) (stale : Int) :
    (initializeMemory memory swapFile cells table stale).ScansInside := by
  rw [scansInside_iff]
  intro t other hother
  obtain rfl : t = 0 := by
    apply Classical.not_not.mp
    intro hne
    rw [initializeMemory_pageTables memory swapFile cells table stale hne] at hother
    cases hother
  obtain rfl : table = other := Option.some.inj hother
  refine ⟨1, by decide, ?_⟩
  rw [initializeMemory_cells memory swapFile cells table stale (by decide : 1 < memoryPages)]
  rfl

theorem LeavingRun.scansInside {s : Paging} (h : LeavingRun s) : s.ScansInside := by
  induction h with
  | start memory swapFile cells table stale =>
      exact initializeMemory_scansInside memory swapFile cells table stale
  | step event hrun hcurrent hadmitted hleaves hstep ih =>
      obtain ⟨htabled, hsteady⟩ := hrun.reachable.tabled
      exact (step_scansInside_iff htabled hsteady hcurrent hadmitted hstep).mpr hleaves

/-- The scans stop inside the tables in every state of such a run, wherever its next
call comes to one, and after that call if and only if it too leaves each table an
unmapped entry. -/
theorem scans_inside_iff {s : Paging} {event : Event} {current : Nat} (hrun : LeavingRun s)
    (hcurrent : s.scheduler.current = some current) (hadmitted : s.Admitted event) :
    s.ScansInside ∧
      (s.Leaves event → ∀ mid, s.Stage event mid → mid.ScansInside) ∧
      ∀ next, s.step event = some next → (next.ScansInside ↔ s.Leaves event) := by
  obtain ⟨htabled, hsteady⟩ := hrun.reachable.tabled
  refine ⟨hrun.scansInside, ?_, ?_⟩
  · intro hleaves mid hstage
    exact hstage.scansInside hrun.scansInside htabled hsteady hcurrent hadmitted hleaves
  · intro next hstep
    exact step_scansInside_iff htabled hsteady hcurrent hadmitted hstep

theorem scans_inside_iff_create : ∃ next,
    mainAlone.step (.create 0 2000 0 0) = some next ∧ mainAlone.ScansInside ∧
      (∀ mid, mainAlone.Stage (.create 0 2000 0 0) mid → mid.ScansInside) ∧
        next.ScansInside := by
  obtain ⟨next, hnext, -⟩ := mainAlone_create
  obtain ⟨hinside, hstages, hafter⟩ := scans_inside_iff (.start _ _ _ _ _)
    (rfl : mainAlone.scheduler.current = some 0) mainAlone_admitted
  have hleaves : mainAlone.Leaves (.create 0 2000 0 0) := by
    intro t table htable
    obtain rfl : t = 0 := Classical.not_not.mp fun hne => by
      rw [mainAlone, initializeMemory_pageTables _ _ _ _ _ hne] at htable
      cases htable
    obtain rfl : 0 = table := Option.some.inj htable
    exact ⟨1, by decide, Or.inr ⟨by decide, by decide, by decide⟩⟩
  exact ⟨next, hnext, hinside, hstages hleaves, (hafter next hnext).mpr hleaves⟩

theorem mapped_run (n : Nat) : n < lastPage → ∃ s, Reachable s ∧
    s.scheduler.current = some 0 ∧ s.pageTables 0 = some 0 ∧
      (∀ i, n < i → i < lastPage → s.masterTable i = false) ∧
      (∀ k, k ≤ n → s.cells k ≠ unmapped) ∧ s.cells lastPage ≠ unmapped := by
  have hpages : memoryPages = lastPage + 1 := rfl
  induction n with
  | zero =>
      intro _
      refine ⟨mainAlone, mainAlone_run.reachable, rfl, rfl, ?_, ?_, by decide⟩
      · intro i hlow hhigh
        exact decide_eq_false fun hor => hor.elim (Nat.ne_of_gt hlow) (Nat.ne_of_lt hhigh)
      · intro k hk
        obtain rfl := Nat.le_zero.mp hk
        decide
  | succ n ih =>
      intro hn
      obtain ⟨s, hreach, hcurrent, htable, hfree, hmapped, hlast⟩ := ih (by omega)
      refine ⟨((s.setCell (0 + (n + 1)) (n + 1)).mark (n + 1) true).protect (n + 1) true,
        hreach.step (.mapPage (n + 1)) hcurrent trivial ?_, hcurrent, htable, ?_, ?_, ?_⟩
      · have hopen := hfree (n + 1) (Nat.lt_succ_self n) hn
        have hclosed : ¬ s.masterTable (n + 1) = true := by
          rw [hopen]
          decide
        change (s.scheduler.current.bind fun t => (s.pageTables t).bind fun table =>
          s.mapPage table (n + 1)) = _
        rw [hcurrent, Option.bind_some, htable, Option.bind_some, mapPage,
          if_pos (by omega), if_neg fun hplaced => hclosed hplaced.1]
        dsimp only
        rw [if_neg hclosed]
        rfl
      · intro i hlow hhigh
        change Function.update s.masterTable (n + 1) true i = false
        rw [Function.update_of_ne (by omega)]
        exact hfree i (by omega) hhigh
      · intro k hk
        change Function.update s.cells (0 + (n + 1)) (n + 1) k ≠ unmapped
        rcases Nat.lt_or_eq_of_le hk with hlt | rfl
        · rw [Function.update_of_ne (by omega)]
          exact hmapped k (by omega)
        · rw [Nat.zero_add, Function.update_self]
          exact lt_unmapped (page_lt_total (by omega))
      · change Function.update s.cells (0 + (n + 1)) (n + 1) lastPage ≠ unmapped
        rw [Function.update_of_ne (by omega)]
        exact hlast

/-- A thread that has mapped its whole region has no unmapped entry left, and every
scan over its table runs on into what follows. -/
theorem scans_overrun : ¬ ∀ s, Reachable s → s.ScansInside := by
  intro h
  have hlastPage : lastPage = 1535 := rfl
  obtain ⟨s, hreach, -, htable, -, hmapped, hlast⟩ := mapped_run 1534 (by decide)
  obtain ⟨k, hk, hblank⟩ := scansInside_iff.mp (h s hreach) 0 0 htable
  rw [Nat.zero_add] at hblank
  rcases Nat.lt_or_eq_of_le hk with hlt | rfl
  · exact hmapped k (by omega) hblank
  · exact hlast hblank

end RutgersOS.Assignment2.Paging
