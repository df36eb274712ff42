import RutgersOS.Assignment2.Ownership

namespace RutgersOS.Assignment2.Paging

/-- Nothing is marked but frames. -/
def MarksFrames (s next : Paging) : Prop :=
  ∀ frame, totalPages ≤ frame → s.masterTable frame = false →
    next.masterTable frame = false

namespace MarksFrames

theorem refl (s : Paging) : MarksFrames s s :=
  fun _ _ hfree => hfree

theorem trans {first second third : Paging} (h : MarksFrames first second)
    (h' : MarksFrames second third) : MarksFrames first third :=
  fun frame hbeyond hfree => h' frame hbeyond (h frame hbeyond hfree)

theorem of_eq {s next : Paging} (h : next.masterTable = s.masterTable) :
    MarksFrames s next := by
  intro frame _ hfree
  rw [h]
  exact hfree

theorem of_mark {s next : Paging} {frame : Nat} (hframe : frame < totalPages)
    (h : next.masterTable = Function.update s.masterTable frame true) :
    MarksFrames s next := by
  intro other hbeyond hfree
  rw [h, Function.update_of_ne (by omega)]
  exact hfree

theorem of_unmark {s next : Paging} {frame : Nat}
    (h : next.masterTable = Function.update s.masterTable frame false) :
    MarksFrames s next := by
  intro other _ hfree
  rw [h, Function.update_apply]
  split
  · rfl
  · exact hfree

theorem of_unmarked {s next : Paging} {entries : Nat → Prop}
    (h : Unmarked s next entries) : MarksFrames s next := by
  intro frame _ hfree
  apply Bool.eq_false_iff.mpr
  intro hused
  rw [((h.masterTable frame).mp hused).1] at hfree
  cases hfree

theorem of_released {s next : Paging} {page cell frame : Nat}
    (h : Released s next page cell frame) : MarksFrames s next := by
  have hframe := (nextFreePage_spec h.free).1
  intro other hbeyond hfree
  rw [h.masterTable, Function.update_of_ne (by omega), Function.update_apply]
  split
  · rfl
  · exact hfree

end MarksFrames

structure Keeps (s next : Paging) : Prop where
  blank : ∀ cell, s.cells cell = unmapped → next.cells cell = unmapped
  marks : MarksFrames s next

namespace Keeps

theorem refl (s : Paging) : Keeps s s :=
  ⟨fun _ hblank => hblank, .refl s⟩

theorem trans {first second third : Paging} (h : Keeps first second)
    (h' : Keeps second third) : Keeps first third :=
  ⟨fun cell hblank => h'.blank cell (h.blank cell hblank), h.marks.trans h'.marks⟩

theorem of_cells {s next : Paging} (h : next.cells = s.cells) (hmarks : MarksFrames s next) :
    Keeps s next := by
  refine ⟨fun cell hblank => ?_, hmarks⟩
  rw [h]
  exact hblank

theorem of_update {s next : Paging} {cell value : Nat}
    (h : next.cells = Function.update s.cells cell value)
    (hmapped : s.cells cell ≠ unmapped) (hmarks : MarksFrames s next) : Keeps s next := by
  refine ⟨fun other hblank => ?_, hmarks⟩
  rw [h, Function.update_of_ne]
  · exact hblank
  · rintro rfl
    exact hmapped hblank

theorem of_scheduler {s next : Paging} (scheduler : Scheduler)
    (h : Keeps { s with scheduler := scheduler } next) : Keeps s next :=
  ⟨h.blank, h.marks⟩

end Keeps

theorem Rewrites.blank {s next : Paging} (h : Rewrites s next) {cell : Nat}
    (hblank : next.cells cell = unmapped) : s.cells cell = unmapped := by
  rcases h.cells cell with hsame | hlt
  · exact hsame.symm.trans hblank
  · exact absurd hblank (lt_unmapped hlt)

theorem rehome_keeps {s next : Paging} {page cell : Nat} (hmapped : s.cells cell ≠ unmapped)
    (h : s.rehome page cell = some next) : Keeps s next := by
  obtain ⟨frame, hrehomed⟩ := rehome_spec h
  have hframe := (nextFreePage_spec hrehomed.free).1
  exact .of_update hrehomed.cells hmapped (.of_mark hframe hrehomed.masterTable)

theorem swapOut_keeps {s next : Paging} {page frame : Nat}
    (h : s.swapOut page = some (frame, next)) : Keeps s next := by
  obtain ⟨-, htables, hmaster⟩ := swapOut_tables h
  exact .of_cells htables.cells (.of_eq hmaster)

theorem swapOutPages_keeps {table : Nat} (n : Nat) :
    ∀ {s next : Paging} {i storedi : Nat},
      swapOutPages table s i n = some (storedi, next) → Keeps s next := by
  induction n with
  | zero => exact nofun
  | succ n ih =>
      intro s next i storedi h
      rw [swapOutPages] at h
      split at h
      · obtain ⟨-, rfl⟩ := Prod.mk.inj (Option.some.inj h)
        exact .refl s
      · next hmapped =>
          obtain ⟨mid, hmid, hrest⟩ := Option.bind_eq_some_iff.mp h
          exact (rehome_keeps hmapped hmid).trans (ih hrest)

/-- The last entry of a table is written without a look at it. -/
theorem switchOut_keeps {s next : Paging} {table : Nat}
    (hlast : s.cells (table + lastPage) ≠ unmapped) (h : s.switchOut table = some next) :
    Keeps s next := by
  obtain ⟨⟨storedi, mid⟩, hmid, hrest⟩ := Option.bind_eq_some_iff.mp h
  obtain ⟨⟨frame, after⟩, hafter, heq⟩ := Option.bind_eq_some_iff.mp hrest
  obtain rfl := Option.some.inj heq
  have hrewrites := (swapOutPages_rewrites _ hmid).trans (swapOut_rewrites hafter).1
  have hmapped : after.cells (table + lastPage) ≠ unmapped :=
    fun hblank => hlast (hrewrites.blank hblank)
  have hout := (swapOutPages_keeps _ hmid).trans (swapOut_keeps hafter)
  have hframe := (swapOut_rewrites hafter).2
  have hfreed : MarksFrames after (after.mark lastPage false) := .of_unmark rfl
  have hmarks : MarksFrames after
      (((after.mark lastPage false).setCell (table + lastPage) frame).mark frame true) :=
    hfreed.trans (.of_mark hframe rfl)
  have hmoved := hout.trans (.of_update rfl hmapped hmarks)
  refine ⟨hmoved.blank, fun other hbeyond hfree => ?_⟩
  have hstill := hmoved.marks other hbeyond hfree
  change (if other < storedi then false else _) = false
  split
  · rfl
  · exact hstill

theorem bringIn_keeps {evict : Paging → Option Paging} {s next : Paging} {table i : Nat}
    (hevict : ∀ mid, evict s = some mid → Rewrites s mid ∧ Keeps s mid)
    (hi : i < memoryPages) (hmapped : s.cells (table + i) ≠ unmapped)
    (h : s.bringIn evict table i = some next) : Keeps s next := by
  have hframe := page_lt_total hi
  rcases bringIn_spec h with ⟨-, rfl⟩ | ⟨-, mid, hmid, hfetched⟩
  · exact .of_update rfl hmapped (.of_mark hframe rfl)
  · obtain ⟨hrewrites, hkeeps⟩ := hevict mid hmid
    apply hkeeps.trans
    apply Keeps.of_update hfetched.cells fun hblank => hmapped (hrewrites.blank hblank)
    intro other hbeyond hfree
    rw [hfetched.masterTable, Function.update_of_ne (by omega), Function.update_apply]
    split
    · rfl
    · exact hfree

theorem bringInPages_keeps {evict : Nat → Paging → Option Paging} {table : Nat}
    (hevict : ∀ i s mid, i < memoryPages → evict i s = some mid →
      Rewrites s mid ∧ Keeps s mid) (n : Nat) :
    ∀ {s next : Paging} {i : Nat}, i + n ≤ memoryPages →
      bringInPages evict table s i n = some next → Keeps s next := by
  induction n with
  | zero => exact fun _ => nofun
  | succ n ih =>
      intro s next i hi h
      rw [bringInPages] at h
      split at h
      · obtain rfl := Option.some.inj h
        exact .refl s
      · next hmapped =>
          obtain ⟨mid, hmid, hrest⟩ := Option.bind_eq_some_iff.mp h
          have hround := bringIn_keeps (fun mid => hevict i s mid (by omega)) (by omega)
            hmapped hmid
          exact hround.trans (ih (by omega) hrest)

theorem evictFrom_keeps {frame : Nat} (hframe : frame < memoryPages) (n : Nat) :
    ∀ {s next : Paging} {j : Nat}, evictFrom frame s j n = some next → Keeps s next := by
  induction n with
  | zero => exact nofun
  | succ n ih =>
      intro s next j h
      rw [evictFrom] at h
      split at h
      · obtain rfl := Option.some.inj h
        exact .refl s
      · next table htable =>
          obtain ⟨mid, hmid, hrest⟩ := Option.bind_eq_some_iff.mp h
          apply Keeps.trans _ (ih hrest)
          rcases evictEntry_cases frame table s memoryPages 0 with
            ⟨-, hsame⟩ | ⟨i, -, -, hcell, hrehome⟩
          · obtain rfl := Option.some.inj (hsame.symm.trans hmid)
            exact .refl s
          · apply rehome_keeps _ (hrehome.symm.trans hmid)
            rw [hcell]
            exact lt_unmapped (page_lt_total hframe)

theorem evictLastFrom_keeps (n : Nat) :
    ∀ {s next : Paging} {j : Nat}, evictLastFrom s j n = some next → Keeps s next := by
  induction n with
  | zero => exact nofun
  | succ n ih =>
      intro s next j h
      rw [evictLastFrom] at h
      split at h
      · obtain rfl := Option.some.inj h
        exact .refl s
      · split at h
        · next table htable hcell =>
            apply rehome_keeps _ h
            rw [hcell]
            exact lt_unmapped (page_lt_total lastPage_lt)
        · exact ih h

theorem stays_keeps (s mid : Paging) (h : some s = some mid) :
    Rewrites s mid ∧ Keeps s mid := by
  obtain rfl := Option.some.inj h
  exact ⟨.refl s, .refl s⟩

theorem evict_keeps {i : Nat} {s mid : Paging} (hi : i < memoryPages)
    (h : evict i s = some mid) : Rewrites s mid ∧ Keeps s mid :=
  ⟨evictFrom_rewrites _ h, evictFrom_keeps hi _ h⟩

section Switch

variable {s next : Paging} {table : Nat} (hlast : s.cells (table + lastPage) ≠ unmapped)

include hlast

theorem switchIn_keeps (h : s.switchIn table = some next) : Keeps s next := by
  obtain ⟨mid, hmid, hrest⟩ := Option.bind_eq_some_iff.mp h
  have hpages : 0 + memoryPages ≤ memoryPages := Nat.le_of_eq (Nat.zero_add _)
  have hrewrites := bringInPages_rewrites (fun _ s mid heq => (stays_keeps s mid heq).1) _
    hpages hmid
  have hloop := bringInPages_keeps (fun _ s mid _ => stays_keeps s mid) _ hpages hmid
  apply hloop.trans
  exact bringIn_keeps (stays_keeps mid) lastPage_lt
    (fun hblank => hlast (hrewrites.blank hblank)) hrest

theorem resumePages_keeps (h : s.resumePages table = some next) : Keeps s next := by
  obtain ⟨mid, hmid, hrest⟩ := Option.bind_eq_some_iff.mp h
  have hpages : 0 + memoryPages ≤ memoryPages := Nat.le_of_eq (Nat.zero_add _)
  have hrewrites := bringInPages_rewrites (fun _ _ _ => evictFrom_rewrites _) _ hpages hmid
  have hloop := bringInPages_keeps (fun _ _ _ hi => evict_keeps hi) _ hpages hmid
  apply hloop.trans
  exact bringIn_keeps (fun _ heq => ⟨evictLastFrom_rewrites _ heq, evictLastFrom_keeps _ heq⟩)
    lastPage_lt (fun hblank => hlast (hrewrites.blank hblank)) hrest

end Switch

theorem Tabled.lastEntry {s : Paging} (h : s.Tabled) {t table : Nat}
    (ht : s.scheduler.Alive t) (htable : s.pageTables t = some table) :
    s.cells (table + lastPage) ≠ unmapped :=
  h.lastMapped t table ((tableOf_eq ht).trans htable)

theorem switchPages_keeps {s next : Paging} {scheduler : Scheduler} {switch : Switch}
    (htabled : s.Tabled) (hyields : Scheduler.Yields s.scheduler scheduler switch)
    (h : Paging.switchPages { s with scheduler := scheduler } switch = some next) :
    Keeps s next := by
  cases hyields.hands with
  | stay hsame =>
      obtain rfl := Option.some.inj h
      exact .of_cells rfl (.of_eq rfl)
  | resume hidle hnext halive =>
      obtain ⟨table, htable, hresume⟩ := Option.bind_eq_some_iff.mp h
      apply Keeps.of_scheduler scheduler
      exact resumePages_keeps (htabled.lastEntry halive htable) hresume
  | swap hcurrent hgone hnext halive =>
      obtain ⟨table, htable, hrest⟩ := Option.bind_eq_some_iff.mp h
      obtain ⟨table', htable', hswap⟩ := Option.bind_eq_some_iff.mp hrest
      obtain ⟨mid, hout, hin⟩ := Option.bind_eq_some_iff.mp hswap
      have hlast := htabled.lastEntry hgone htable
      have hlast' := htabled.lastEntry halive htable'
      have hout' : Keeps s mid := .of_scheduler scheduler (switchOut_keeps hlast hout)
      apply hout'.trans
      exact switchIn_keeps (fun hblank => hlast' ((switchOut_rewrites hout).blank hblank)) hin

theorem yield_keeps {s next : Paging} (hpending : s.scheduler.Pending) (htabled : s.Tabled)
    (h : s.myPthreadYield = some next) : Keeps s next := by
  obtain ⟨scheduler, switch, -, hyields, -, hpages⟩ := yield_cases hpending h
  exact switchPages_keeps htabled hyields hpages

theorem yield_mapped_iff {s next : Paging} (hpending : s.scheduler.Pending)
    (htabled : s.Tabled) (h : s.myPthreadYield = some next) (key : Nat × Nat) :
    next.place key ≠ none ↔ s.place key ≠ none := by
  obtain ⟨scheduler, switch, -, hyields, -, hpages⟩ := yield_cases hpending h
  have hsame := rescheduled_threads hyields.threads hyields.threadIDS
  have hrewrites := switchPages_rewrites hpages
  have hkeeps := switchPages_keeps htabled hyields hpages
  obtain ⟨t, q⟩ := key
  constructor
  · intro hmapped habsent
    obtain ⟨frame, hplace⟩ := Option.ne_none_iff_exists'.mp hmapped
    obtain ⟨table, htable, hq, hcell, hframe⟩ := place_eq_some.mp hplace
    rw [hrewrites.tableOf, hsame.table] at htable
    rw [hkeeps.blank _ ((place_eq_none htable hq).mp habsent)] at hcell
    exact hframe hcell.symm
  · intro hmapped
    apply hrewrites.mapped
    rw [hsame.place]
    exact hmapped

end RutgersOS.Assignment2.Paging
