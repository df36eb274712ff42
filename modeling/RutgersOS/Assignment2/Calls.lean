import RutgersOS.Assignment2.Tables

namespace RutgersOS.Assignment2.Paging

open RutgersOS.Memory RutgersOS.Pthread

/-! What the running thread does.  A user `myallocate` reads and writes tags and
then maps pages, and the memory of a released page table is used again. -/

inductive Event
  | create (stale : Int) (table : Nat) (beside beside' : BitVec 32)
  | yield
  | exit (valuePtr : Int)
  | join (thread : Nat)
  | load (address : Int)
  | store (address : Int) (byte : UInt8)
  | setValue (p size allocation : Int)
  | mapPage (i : Nat)
  | reuse (cell value : Nat)

def step (s : Paging) : Event → Option Paging
  | .create stale table beside beside' => s.myPthreadCreate stale table beside beside'
  | .yield => s.myPthreadYield
  | .exit valuePtr => s.myPthreadExit valuePtr
  | .join thread => s.myPthreadJoin thread
  | .load address => s.touch address
  | .store address byte => s.storeByte address byte
  | .setValue p size allocation => s.setValue p size allocation
  | .mapPage i => do
      let current ← s.scheduler.current
      let currentTable ← s.pageTables current
      s.mapPage currentTable i
  | .reuse cell value => some (s.setCell cell value)

/-- The OS allocator hands out no memory that holds the table of an unjoined
thread. -/
def Admitted (s : Paging) : Event → Prop
  | .create _ table _ _ => ∀ t other, s.tableOf t = some other →
      table + memoryPages ≤ other ∨ other + memoryPages ≤ table
  | .reuse cell _ => ¬ s.LiveCell cell
  | _ => True

inductive Reachable : Paging → Prop
  | start (memory swapFile : Bytes) (cells : Nat → Nat) (table : Nat) (stale : Int) :
      Reachable (initializeMemory memory swapFile cells table stale)
  | step {s next : Paging} {current : Nat} (event : Event) : Reachable s →
      s.scheduler.current = some current → s.Admitted event →
        s.step event = some next → Reachable next

structure Tabled (s : Paging) : Prop where
  apart : s.Apart
  ranged : s.Ranged
  slots : s.Slots s.scheduler.threadIDS
  beyond : ∀ t, s.scheduler.threadIDS ≤ t → s.pageTables t = none
  alive : ∀ t, s.scheduler.Alive t → t < s.scheduler.threadIDS
  count : s.scheduler.threadIDS ≤ maxThreads
  lastMapped : ∀ t table, s.tableOf t = some table →
    s.cells (table + lastPage) ≠ unmapped

theorem tableOf_eq {s : Paging} {t : Nat} (h : s.scheduler.Alive t) :
    s.tableOf t = s.pageTables t :=
  if_pos (Option.isSome_iff_ne_none.mpr h)

theorem tableOf_eq_none {s : Paging} {t : Nat} (h : s.scheduler.threads t = none) :
    s.tableOf t = none := by
  rw [tableOf, h]
  rfl

theorem alive_of_tableOf {s : Paging} {t table : Nat} (h : s.tableOf t = some table) :
    s.scheduler.Alive t := by
  intro hnone
  rw [tableOf_eq_none hnone] at h
  cases h

namespace Tabled

variable {s next : Paging}

theorem table (h : s.Tabled) {t : Nat} (ht : s.scheduler.Alive t) :
    ∃ table, s.tableOf t = some table ∧ s.pageTables t = some table := by
  obtain ⟨table, htable⟩ := Option.ne_none_iff_exists'.mp (h.slots.below t (h.alive t ht))
  exact ⟨table, (tableOf_eq ht).trans htable, htable⟩

theorem lt (h : s.Tabled) {t table : Nat} (htable : s.tableOf t = some table) :
    t < s.scheduler.threadIDS :=
  h.alive t (alive_of_tableOf htable)

theorem placeLast (h : s.Tabled) {t : Nat} (ht : s.scheduler.Alive t) :
    s.place (t, lastPage) ≠ none := by
  obtain ⟨table, htable, -⟩ := h.table ht
  rw [Ne, place_eq_none htable lastPage_lt]
  exact h.lastMapped t table htable

theorem congr (h : s.Tabled) (htable : next.tableOf = s.tableOf)
    (hpageTables : next.pageTables = s.pageTables)
    (hids : next.scheduler.threadIDS = s.scheduler.threadIDS)
    (halive : ∀ t, next.scheduler.Alive t ↔ s.scheduler.Alive t)
    (hcells : ∀ cell, s.LiveCell cell →
      next.cells cell = s.cells cell ∨ next.cells cell < totalPages) : next.Tabled where
  apart := by
    unfold Apart
    rw [htable]
    exact h.apart
  ranged := by
    rintro ⟨t, q⟩ frame hplace
    obtain ⟨table, ht, hq, hcell, hframe⟩ := place_eq_some.mp hplace
    rw [htable] at ht
    rcases hcells (table + q) ⟨t, table, q, ht, hq, rfl⟩ with hsame | hlt
    · exact h.ranged (t, q) frame
        (place_eq_some.mpr ⟨table, ht, hq, hsame.symm.trans hcell, hframe⟩)
    · exact hcell ▸ hlt
  slots := by
    rw [hids]
    exact h.slots.congr hpageTables
  beyond := by
    rw [hids, hpageTables]
    exact h.beyond
  alive t ht := by
    rw [hids]
    exact h.alive t ((halive t).mp ht)
  count := by
    rw [hids]
    exact h.count
  lastMapped t table ht := by
    rw [htable] at ht
    rcases hcells (table + lastPage) ⟨t, table, lastPage, ht, lastPage_lt, rfl⟩ with
      hsame | hlt
    · rw [hsame]
      exact h.lastMapped t table ht
    · exact lt_unmapped hlt

theorem rewrites (h : s.Tabled) (hrewrites : Rewrites s next) : next.Tabled := by
  apply h.congr hrewrites.tableOf hrewrites.pageTables
  · rw [hrewrites.scheduler]
  · intro t
    rw [hrewrites.scheduler]
  · intro cell _
    exact hrewrites.cells cell

end Tabled

structure Rescheduled (s mid : Paging) : Prop where
  table : mid.tableOf = s.tableOf
  pageTables : mid.pageTables = s.pageTables
  ids : mid.scheduler.threadIDS = s.scheduler.threadIDS
  alive : ∀ t, mid.scheduler.Alive t ↔ s.scheduler.Alive t
  cells : mid.cells = s.cells
  masterTable : mid.masterTable = s.masterTable
  content : mid.content = s.content
  accessible : mid.accessible = s.accessible

theorem Rescheduled.place {s mid : Paging} (h : Rescheduled s mid) : mid.place = s.place :=
  place_congr h.table h.cells

theorem Rescheduled.tabled {s mid : Paging} (h : Rescheduled s mid) (htabled : s.Tabled) :
    mid.Tabled :=
  htabled.congr h.table h.pageTables h.ids h.alive fun cell _ =>
    Or.inl (congrFun h.cells cell)

theorem rescheduled_threads {s : Paging} {scheduler : Scheduler}
    (hthreads : scheduler.threads = s.scheduler.threads)
    (hids : scheduler.threadIDS = s.scheduler.threadIDS) :
    Rescheduled s { s with scheduler := scheduler } where
  table := by
    funext t
    rw [tableOf, tableOf, hthreads]
  pageTables := rfl
  ids := hids
  alive t := by
    rw [Scheduler.Alive, Scheduler.Alive, hthreads]
  cells := rfl
  masterTable := rfl
  content := rfl
  accessible := rfl

theorem yield_cases {s next : Paging} (hpending : s.scheduler.Pending)
    (h : s.myPthreadYield = some next) : ∃ scheduler switch,
      s.scheduler.myPthreadYield = some (scheduler, switch) ∧
        Scheduler.Yields s.scheduler scheduler switch ∧ scheduler.Steady ∧
        Paging.switchPages { s with scheduler := scheduler } switch = some next := by
  obtain ⟨scheduler, switch, hyield, hyields, hsteady⟩ := hpending.yields
  obtain ⟨⟨other, switch'⟩, hother, hpages⟩ := Option.bind_eq_some_iff.mp h
  obtain ⟨rfl, rfl⟩ := Prod.mk.inj (Option.some.inj (hyield.symm.trans hother))
  exact ⟨scheduler, switch, hyield, hyields, hsteady, hpages⟩

theorem yield_tabled {s next : Paging} (hpending : s.scheduler.Pending) (htabled : s.Tabled)
    (h : s.myPthreadYield = some next) : next.Tabled ∧ next.scheduler.Steady := by
  obtain ⟨scheduler, switch, -, hyields, hsteady, hpages⟩ := yield_cases hpending h
  have hrewrites := switchPages_rewrites hpages
  refine ⟨?_, ?_⟩
  · exact ((rescheduled_threads hyields.threads hyields.threadIDS).tabled
      htabled).rewrites hrewrites
  · rw [hrewrites.scheduler]
    exact hsteady

/-- The entries that the loop over a new table leaves. -/
def newTable (cells : Nat → Nat) (table first last : Nat) : Nat → Nat :=
  fun cell =>
    if table < cell ∧ cell < table + lastPage then unmapped
    else if cell = table + lastPage then last
    else if cell = table then first
    else cells cell

structure Started (s next : Paging) (stale : Int) (table first last : Nat) : Prop where
  enqueued : s.scheduler.enqueueThread stale = some next.scheduler
  room : s.scheduler.threadIDS < maxThreads
  firstFree : s.nextFreePage = some first
  lastFree : nextFree (Function.update s.masterTable first true) 0 totalPages = some last
  pageTables : next.pageTables =
    Function.update s.pageTables s.scheduler.threadIDS (some table)
  cells : next.cells = newTable s.cells table first last
  masterTable : next.masterTable =
    Function.update (Function.update s.masterTable first true) last true
  accessible : ∀ frame, next.accessible frame =
    if frame = first ∨ frame = last then false else s.accessible frame
  fileOpen : next.fileOpen = s.fileOpen

theorem createPageHeader_same (s : Paging) (offset : Nat) (beside : BitVec 32) :
    SameTables s (s.createPageHeader offset beside) ∧
      (s.createPageHeader offset beside).masterTable = s.masterTable ∧
      (s.createPageHeader offset beside).accessible = s.accessible := by
  unfold createPageHeader
  dsimp only
  split
  · exact ⟨⟨rfl, rfl, rfl, rfl⟩, rfl, rfl⟩
  · split
    · exact ⟨⟨rfl, rfl, rfl, rfl⟩, rfl, rfl⟩
    · exact ⟨.refl s, rfl, rfl⟩

theorem createPageFooter_same (s : Paging) (offset : Nat) (beside : BitVec 32) :
    SameTables s (s.createPageFooter offset beside) ∧
      (s.createPageFooter offset beside).masterTable = s.masterTable ∧
      (s.createPageFooter offset beside).accessible = s.accessible := by
  unfold createPageFooter
  dsimp only
  split
  · exact ⟨⟨rfl, rfl, rfl, rfl⟩, rfl, rfl⟩
  · split
    · exact ⟨⟨rfl, rfl, rfl, rfl⟩, rfl, rfl⟩
    · exact ⟨.refl s, rfl, rfl⟩

theorem startThread_spec {s next : Paging} {stale : Int} {table : Nat}
    {beside beside' : BitVec 32} (h : s.startThread stale table beside beside' = some next) :
    ∃ first last, Started s next stale table first last := by
  obtain ⟨scheduler, henqueue, hrest⟩ := Option.bind_eq_some_iff.mp h
  split at hrest
  · next hroom =>
      obtain ⟨first, hfirst, hmid⟩ := Option.bind_eq_some_iff.mp hrest
      obtain ⟨last, hlast, heq⟩ := Option.bind_eq_some_iff.mp hmid
      dsimp only at hlast heq
      obtain rfl := Option.some.inj heq
      obtain ⟨hheader, hmaster, haccess⟩ := createPageHeader_same
        (Paging.protect (Paging.mark (Paging.setCell
          { s with
            scheduler := scheduler
            pageTables := Function.update s.pageTables s.scheduler.threadIDS (some table) }
          table first) first true) first true) first beside
      rw [nextFreePage, hmaster] at hlast
      obtain ⟨hfooter, hmaster', haccess'⟩ := createPageFooter_same
        (Paging.protect (Paging.mark (Paging.setCell _ (table + (memoryPages - 1)) last) last true)
          last true) last beside'
      refine ⟨first, last,
        { enqueued := henqueue.trans (congrArg some ?_)
          room := hroom
          firstFree := hfirst
          lastFree := hlast
          pageTables := ?_
          cells := ?_
          masterTable := ?_
          accessible := ?_
          fileOpen := ?_ }⟩
      · exact (hfooter.scheduler.trans hheader.scheduler).symm
      · exact hfooter.pageTables.trans hheader.pageTables
      · funext cell
        change (if _ then unmapped else (createPageFooter _ last beside').cells cell) = _
        rw [hfooter.cells]
        change (if _ then unmapped else
          Function.update (createPageHeader _ first beside).cells _ last cell) = _
        rw [hheader.cells]
        simp only [Paging.protect, Paging.mark, Paging.setCell, Function.update_apply]
        rfl
      · change (createPageFooter _ last beside').masterTable = _
        rw [hmaster']
        change Function.update (createPageHeader _ first beside).masterTable last true = _
        rw [hmaster]
        rfl
      · intro frame
        change Function.update (Function.update
          (createPageFooter _ last beside').accessible first false) last false frame = _
        rw [haccess']
        change Function.update (Function.update (Function.update
          (createPageHeader _ first beside).accessible last true) first false)
          last false frame = _
        rw [haccess]
        simp only [Function.update_apply, Paging.protect]
        split
        · next heq => exact (if_pos (Or.inr heq)).symm
        · next hlast =>
            split
            · next heq => exact (if_pos (Or.inl heq)).symm
            · next hfirst =>
                exact (if_neg fun hor => hor.elim hfirst hlast).symm
      · exact hfooter.fileOpen.trans hheader.fileOpen
  · cases hrest

theorem newTable_outside {cells : Nat → Nat} {table first last cell : Nat}
    (h : cell < table ∨ table + memoryPages ≤ cell) :
    newTable cells table first last cell = cells cell := by
  have hlast : lastPage = 1535 := rfl
  have hpages : memoryPages = 1536 := rfl
  rw [newTable, if_neg (by omega), if_neg (by omega), if_neg (by omega)]

namespace Started

variable {s next : Paging} {stale : Int} {table first last current : Nat}
  (h : Started s next stale table first last) (hsteady : s.scheduler.Steady)
  (hcurrent : s.scheduler.current = some current)

include h hsteady hcurrent

theorem scheduler : next.scheduler.Pending ∧
    next.scheduler.current = s.scheduler.current ∧
    next.scheduler.threadIDS = s.scheduler.threadIDS + 1 ∧
    next.scheduler.threads =
      Function.update s.scheduler.threads s.scheduler.threadIDS (some ⟨.active, stale⟩) := by
  obtain ⟨scheduler, henqueue, hrest⟩ := hsteady.enqueueThread hcurrent stale
  obtain rfl := Option.some.inj (henqueue.symm.trans h.enqueued)
  exact hrest

theorem tableOf (t : Nat) : next.tableOf t =
    if t = s.scheduler.threadIDS then some table else s.tableOf t := by
  obtain ⟨-, -, -, hthreads⟩ := h.scheduler hsteady hcurrent
  rw [Paging.tableOf, Paging.tableOf, hthreads, h.pageTables]
  rcases Classical.em (t = s.scheduler.threadIDS) with rfl | hne
  · rw [Function.update_self, Function.update_self, if_pos rfl]
    rfl
  · rw [Function.update_of_ne hne, Function.update_of_ne hne, if_neg hne]

variable (hadmitted : ∀ t other, s.tableOf t = some other →
  table + memoryPages ≤ other ∨ other + memoryPages ≤ table)

include hadmitted

theorem place (t q : Nat) : next.place (t, q) =
    if t = s.scheduler.threadIDS then
      if q = 0 then some first else if q = lastPage then some last else none
    else s.place (t, q) := by
  have hlast : lastPage = 1535 := rfl
  have hpages : memoryPages = 1536 := rfl
  unfold Paging.place
  dsimp only
  rw [h.tableOf hsteady hcurrent t, h.cells]
  rcases Classical.em (t = s.scheduler.threadIDS) with rfl | hne
  · rw [if_pos rfl, if_pos rfl, Option.bind_eq_bind, Option.bind_some]
    have hfirst := lt_unmapped (nextFreePage_spec h.firstFree).1
    have hfound := (nextFree_spec totalPages h.lastFree).2.1
    have hlastFrame : last ≠ unmapped := lt_unmapped (Nat.zero_add totalPages ▸ hfound)
    rcases Classical.em (q = 0) with rfl | hq
    · have hcell : newTable s.cells table first last (table + 0) = first := by
        rw [newTable, if_neg (by omega), if_neg (by omega), if_pos (Nat.add_zero table)]
      rw [hcell, if_pos ⟨by omega, hfirst⟩, if_pos rfl]
    · rw [if_neg hq]
      rcases Classical.em (q = lastPage) with rfl | hq'
      · have hcell : newTable s.cells table first last (table + lastPage) = last := by
          rw [newTable, if_neg (by omega), if_pos rfl]
        rw [hcell, if_pos ⟨by omega, hlastFrame⟩, if_pos rfl]
      · rw [if_neg hq']
        rcases Nat.lt_or_ge q memoryPages with hlt | hge
        · have hcell : newTable s.cells table first last (table + q) = unmapped := by
            rw [newTable, if_pos (by omega)]
          rw [hcell, if_neg fun hmapped => hmapped.2 rfl]
        · rw [if_neg fun hmapped => Nat.not_lt.mpr hge hmapped.1]
  · rw [if_neg hne, if_neg hne]
    cases hother : s.tableOf t with
    | none => rfl
    | some other =>
        simp only [Option.bind_eq_bind, Option.bind_some]
        rcases Nat.lt_or_ge q memoryPages with hlt | hge
        · have hbounds := hadmitted t other hother
          rw [newTable_outside (by omega)]
        · rw [if_neg fun hmapped => Nat.not_lt.mpr hge hmapped.1,
            if_neg fun hmapped => Nat.not_lt.mpr hge hmapped.1]

theorem tabled (htabled : s.Tabled) : next.Tabled := by
  have htable := h.tableOf hsteady hcurrent
  have hplace := h.place hsteady hcurrent hadmitted
  obtain ⟨-, -, hids, hthreads⟩ := h.scheduler hsteady hcurrent
  have hfound := (nextFree_spec totalPages h.lastFree).2.1
  refine
    { apart := ?_
      ranged := ?_
      slots := ⟨?_, ?_⟩
      beyond := ?_
      alive := ?_
      count := ?_
      lastMapped := ?_ }
  · intro t u one other hone hother hne
    rw [htable] at hone hother
    split at hone
    · next ht =>
        obtain rfl := Option.some.inj hone
        rw [if_neg fun hu => hne (ht.trans hu.symm)] at hother
        exact hadmitted u other hother
    · split at hother
      · obtain rfl := Option.some.inj hother
        exact (hadmitted t one hone).symm
      · exact htabled.apart t u one other hone hother hne
  · rintro ⟨t, q⟩ frame hframe
    rw [hplace] at hframe
    split at hframe
    · split at hframe
      · obtain rfl := Option.some.inj hframe
        exact (nextFreePage_spec h.firstFree).1
      · split at hframe
        · obtain rfl := Option.some.inj hframe
          exact Nat.zero_add totalPages ▸ hfound
        · cases hframe
    · exact htabled.ranged (t, q) frame hframe
  · intro j hj
    rw [hids] at hj
    rw [h.pageTables]
    rcases Nat.lt_succ_iff_lt_or_eq.mp hj with hold | rfl
    · rw [Function.update_of_ne (Nat.ne_of_lt hold)]
      exact htabled.slots.below j hold
    · rw [Function.update_self]
      nofun
  · rw [hids, h.pageTables, Function.update_of_ne (Nat.succ_ne_self _)]
    exact htabled.beyond _ (Nat.le_succ _)
  · intro t ht
    rw [hids] at ht
    rw [h.pageTables, Function.update_of_ne (by omega)]
    exact htabled.beyond t (by omega)
  · intro t ht
    rw [Scheduler.Alive, hthreads] at ht
    rw [hids]
    rcases Classical.em (t = s.scheduler.threadIDS) with rfl | hne
    · exact Nat.lt_succ_self _
    · rw [Function.update_of_ne hne] at ht
      exact Nat.lt_succ_of_lt (htabled.alive t ht)
  · rw [hids]
    exact h.room
  · intro t found hfoundTable
    have hmapped : next.place (t, lastPage) ≠ none := by
      rw [hplace]
      split
      · rw [if_neg (by decide), if_pos rfl]
        nofun
      · next hne =>
          rw [htable, if_neg hne] at hfoundTable
          exact htabled.placeLast (alive_of_tableOf hfoundTable)
    rwa [Ne, place_eq_none hfoundTable lastPage_lt] at hmapped

end Started

theorem leave_spec {s next : Paging} {valuePtr : Int} {current : Nat}
    (hsteady : s.scheduler.Steady) (hcurrent : s.scheduler.current = some current)
    (h : s.leave valuePtr = some next) :
    Rescheduled s next ∧ next.scheduler.Pending ∧ next.scheduler.current = none ∧
      next.fileOpen = if current = 0 then false else s.fileOpen := by
  obtain ⟨other, hother, hrest⟩ := Option.bind_eq_some_iff.mp h
  obtain rfl := Option.some.inj (hcurrent.symm.trans hother)
  obtain ⟨scheduler, hremove, heq⟩ := Option.bind_eq_some_iff.mp hrest
  obtain rfl := Option.some.inj heq
  obtain ⟨found, hfound, hpending, hnone, hids, hcases⟩ :=
    hsteady.removeCurrent hcurrent valuePtr
  obtain rfl := Option.some.inj (hremove.symm.trans hfound)
  refine ⟨?_, hpending, hnone, rfl⟩
  have hsome : ∀ t, (scheduler.threads t).isSome = (s.scheduler.threads t).isSome := by
    intro t
    rcases hcases with ⟨-, -, -, hthreads⟩ | ⟨value, hactive, hthreads⟩
    · rw [hthreads]
    · rw [hthreads]
      rcases Classical.em (t = current) with rfl | hne
      · rw [Function.update_self, hactive]
        rfl
      · rw [Function.update_of_ne hne]
  refine
    { table := ?_
      pageTables := rfl
      ids := hids
      alive := ?_
      cells := rfl
      masterTable := rfl
      content := rfl
      accessible := rfl }
  · funext t
    rw [tableOf, tableOf, hsome]
  · intro t
    rw [Scheduler.Alive, Scheduler.Alive, ← Option.isSome_iff_ne_none, hsome,
      Option.isSome_iff_ne_none]

structure Forgotten (s next : Paging) (t : Nat) : Prop where
  scheduler : next.scheduler = s.scheduler.setThread t none
  pageTables : next.pageTables = s.pageTables
  cells : next.cells = s.cells
  fileOpen : next.fileOpen = s.fileOpen
  content : next.content = s.content

theorem releasePage_same (s : Paging) (table i : Nat) :
    SameTables s (s.releasePage table i) ∧ (s.releasePage table i).content = s.content := by
  unfold releasePage
  dsimp only
  split
  · exact ⟨⟨rfl, rfl, rfl, rfl⟩, rfl⟩
  · exact ⟨⟨rfl, rfl, rfl, rfl⟩, rfl⟩

theorem releasePages_same {table : Nat} (n : Nat) : ∀ {s next : Paging} {i : Nat},
    releasePages table s i n = some next →
      SameTables s next ∧ next.content = s.content := by
  induction n with
  | zero => exact nofun
  | succ n ih =>
      intro s next i h
      rw [releasePages] at h
      split at h
      · obtain rfl := Option.some.inj h
        exact ⟨.refl s, rfl⟩
      · obtain ⟨htables, hcontent⟩ := ih h
        obtain ⟨htables', hcontent'⟩ := releasePage_same s table i
        exact ⟨htables'.trans htables, hcontent.trans hcontent'⟩

theorem releaseThread_forgotten {s next : Paging} {t : Nat}
    (h : s.releaseThread t = some next) : Forgotten s next t := by
  obtain ⟨table, -, hrest⟩ := Option.bind_eq_some_iff.mp h
  obtain ⟨mid, hmid, heq⟩ := Option.bind_eq_some_iff.mp hrest
  obtain rfl := Option.some.inj heq
  obtain ⟨htables, hcontent⟩ := releasePages_same _ hmid
  obtain ⟨htables', hcontent'⟩ := releasePage_same mid table lastPage
  have hall := htables.trans htables'
  exact ⟨congrArg (Scheduler.setThread · t none) hall.scheduler, hall.pageTables,
    hall.cells, hall.fileOpen, hcontent'.trans hcontent⟩

namespace Forgotten

variable {s next : Paging} {t : Nat} (h : Forgotten s next t)

include h

theorem tableOf (u : Nat) : next.tableOf u = if u = t then none else s.tableOf u := by
  have hthreads : next.scheduler.threads = Function.update s.scheduler.threads t none := by
    rw [h.scheduler]
    rfl
  rw [Paging.tableOf, Paging.tableOf, hthreads, h.pageTables]
  rcases Classical.em (u = t) with rfl | hne
  · rw [if_pos rfl, Function.update_self]
    rfl
  · rw [if_neg hne, Function.update_of_ne hne]

theorem place (u q : Nat) : next.place (u, q) = if u = t then none else s.place (u, q) := by
  unfold Paging.place
  dsimp only
  rw [h.tableOf, h.cells]
  split
  · rfl
  · rfl

theorem tabled (htabled : s.Tabled) : next.Tabled := by
  have hids : next.scheduler.threadIDS = s.scheduler.threadIDS := by
    rw [h.scheduler]
    rfl
  have htable : ∀ {u table}, next.tableOf u = some table → s.tableOf u = some table := by
    intro u table hu
    rw [h.tableOf] at hu
    split at hu
    · cases hu
    · exact hu
  refine
    { apart := ?_
      ranged := ?_
      slots := ?_
      beyond := ?_
      alive := ?_
      count := ?_
      lastMapped := ?_ }
  · intro u v table other hu hv
    exact htabled.apart u v table other (htable hu) (htable hv)
  · rintro ⟨u, q⟩ frame hframe
    rw [h.place] at hframe
    split at hframe
    · cases hframe
    · exact htabled.ranged (u, q) frame hframe
  · rw [hids]
    exact htabled.slots.congr h.pageTables
  · rw [hids, h.pageTables]
    exact htabled.beyond
  · intro u hu
    rw [hids]
    apply htabled.alive u
    intro hnone
    apply hu
    rw [h.scheduler, Scheduler.setThread]
    rcases Classical.em (u = t) with rfl | hne
    · exact Function.update_self _ _ _
    · exact (Function.update_of_ne hne _ _).trans hnone
  · rw [hids]
    exact htabled.count
  · intro u table hu
    rw [h.cells]
    exact htabled.lastMapped u table (htable hu)

end Forgotten

theorem join_cases {s next : Paging} {t : Nat} (h : s.myPthreadJoin t = some next) :
    s.myPthreadYield = some next ∨ s.releaseThread t = some next ∧
      ∃ struct, s.scheduler.threads t = some struct ∧ struct.state = .completed := by
  obtain ⟨struct, hstruct, hrest⟩ := Option.bind_eq_some_iff.mp h
  split at hrest
  · exact Or.inl hrest
  · next hstate => exact Or.inr ⟨hrest, struct, hstruct, Classical.not_not.mp hstate⟩

theorem mapEvent_cases {s next : Paging} {i : Nat} (h : s.step (.mapPage i) = some next) :
    ∃ current currentTable, s.scheduler.current = some current ∧
      s.pageTables current = some currentTable ∧ s.mapPage currentTable i = some next := by
  obtain ⟨current, hcurrent, hrest⟩ := Option.bind_eq_some_iff.mp h
  obtain ⟨currentTable, htable, hmap⟩ := Option.bind_eq_some_iff.mp hrest
  exact ⟨current, currentTable, hcurrent, htable, hmap⟩

theorem access_rewrites {s next : Paging} {event : Event} (h : s.step event = some next)
    (haccess : (∃ address, event = .load address) ∨
      (∃ address byte, event = .store address byte) ∨
      ∃ p size allocation, event = .setValue p size allocation) : Rewrites s next := by
  rcases haccess with ⟨address, rfl⟩ | ⟨address, byte, rfl⟩ | ⟨p, size, allocation, rfl⟩
  · exact touch_rewrites h
  · obtain ⟨mid, hmid, heq⟩ := Option.bind_eq_some_iff.mp h
    obtain rfl := Option.some.inj heq
    have hrewrites := touch_rewrites hmid
    exact ⟨hrewrites.scheduler, hrewrites.pageTables, hrewrites.fileOpen, hrewrites.cells⟩
  · obtain ⟨mid, hmid, heq⟩ := Option.bind_eq_some_iff.mp h
    obtain rfl := Option.some.inj heq
    have hrewrites := touchWord_rewrites hmid
    exact ⟨hrewrites.scheduler, hrewrites.pageTables, hrewrites.fileOpen, hrewrites.cells⟩

theorem step_tabled {s next : Paging} {event : Event} {current : Nat}
    (htabled : s.Tabled) (hsteady : s.scheduler.Steady)
    (hcurrent : s.scheduler.current = some current) (hadmitted : s.Admitted event)
    (h : s.step event = some next) : next.Tabled ∧ next.scheduler.Steady := by
  have hrewrites : Rewrites s next → next.Tabled ∧ next.scheduler.Steady := by
    intro hrewrites
    refine ⟨htabled.rewrites hrewrites, ?_⟩
    rw [hrewrites.scheduler]
    exact hsteady
  cases event with
  | create stale table beside beside' =>
      obtain ⟨mid, hmid, hyield⟩ := Option.bind_eq_some_iff.mp h
      obtain ⟨first, last, hstarted⟩ := startThread_spec hmid
      exact yield_tabled (hstarted.scheduler hsteady hcurrent).1
        (hstarted.tabled hsteady hcurrent hadmitted htabled) hyield
  | yield => exact yield_tabled hsteady.pending htabled h
  | exit valuePtr =>
      obtain ⟨mid, hmid, hyield⟩ := Option.bind_eq_some_iff.mp h
      obtain ⟨hsame, hpending, -⟩ := leave_spec hsteady hcurrent hmid
      exact yield_tabled hpending (hsame.tabled htabled) hyield
  | join thread =>
      rcases join_cases h with hyield | ⟨hrelease, struct, hstruct, hcompleted⟩
      · exact yield_tabled hsteady.pending htabled hyield
      · have hforgotten := releaseThread_forgotten hrelease
        refine ⟨hforgotten.tabled htabled, ?_⟩
        rw [hforgotten.scheduler]
        exact (hsteady.release hstruct hcompleted).1
  | load address => exact hrewrites (access_rewrites h (Or.inl ⟨address, rfl⟩))
  | store address byte =>
      exact hrewrites (access_rewrites h (Or.inr (Or.inl ⟨address, byte, rfl⟩)))
  | setValue p size allocation =>
      exact hrewrites (access_rewrites h (Or.inr (Or.inr ⟨p, size, allocation, rfl⟩)))
  | mapPage i =>
      obtain ⟨_, _, -, -, hmap⟩ := mapEvent_cases h
      exact hrewrites (mapPage_rewrites hmap)
  | reuse cell value =>
      obtain rfl := Option.some.inj h
      refine ⟨htabled.congr rfl rfl rfl (fun _ => Iff.rfl) ?_, hsteady⟩
      intro other hlive
      left
      apply Function.update_of_ne
      rintro rfl
      exact hadmitted hlive

theorem initializeMemory_steady (memory swapFile : Bytes) (cells : Nat → Nat) (table : Nat)
    (stale : Int) :
    (initializeMemory memory swapFile cells table stale).scheduler.Steady :=
  Or.inl ⟨stale, Or.inl rfl⟩

section Start

variable (memory swapFile : Bytes) (cells : Nat → Nat) (table : Nat) (stale : Int)

theorem initializeMemory_threads {t : Nat} (ht : t ≠ 0) :
    (initializeMemory memory swapFile cells table stale).scheduler.threads t = none := by
  change Function.update (fun _ => none) 0 (some (Thread.mk .active stale)) t = none
  rw [Function.update_of_ne ht]

theorem initializeMemory_pageTables {t : Nat} (ht : t ≠ 0) :
    (initializeMemory memory swapFile cells table stale).pageTables t = none := by
  change Function.update (fun _ => none) 0 (some table) t = none
  rw [Function.update_of_ne ht]

theorem initializeMemory_cells {q : Nat} (hq : q < memoryPages) :
    (initializeMemory memory swapFile cells table stale).cells (table + q) =
      if q = 0 ∨ q = lastPage then q else unmapped := by
  have hlast : lastPage = 1535 := rfl
  have hpages : memoryPages = 1536 := rfl
  unfold initializeMemory
  dsimp only
  rcases Classical.em (q = 0) with rfl | hq'
  · rw [if_pos (Nat.add_zero table), if_pos (Or.inl rfl)]
  · rw [if_neg (by omega)]
    rcases Classical.em (q = lastPage) with rfl | hne
    · rw [if_pos (by omega), if_pos (Or.inr rfl)]
      rfl
    · rw [if_neg (by omega), if_pos (by omega), if_neg fun hor => hor.elim hq' hne]

theorem initializeMemory_tableOf (t : Nat) :
    (initializeMemory memory swapFile cells table stale).tableOf t =
      if t = 0 then some table else none := by
  rcases Classical.em (t = 0) with rfl | hne
  · rfl
  · rw [if_neg hne]
    exact tableOf_eq_none (initializeMemory_threads memory swapFile cells table stale hne)

theorem initializeMemory_place (t q : Nat) :
    (initializeMemory memory swapFile cells table stale).place (t, q) =
      if t = 0 ∧ (q = 0 ∨ q = lastPage) then some q else none := by
  unfold place
  dsimp only
  rw [initializeMemory_tableOf]
  rcases Classical.em (t = 0) with rfl | hne
  · rw [if_pos rfl, Option.bind_eq_bind, Option.bind_some]
    rcases Nat.lt_or_ge q memoryPages with hlt | hge
    · rw [initializeMemory_cells _ _ _ _ _ hlt]
      rcases Classical.em (q = 0 ∨ q = lastPage) with hin | hout
      · rw [if_pos hin, if_pos ⟨hlt, lt_unmapped (page_lt_total hlt)⟩, if_pos ⟨rfl, hin⟩]
      · rw [if_neg hout, if_neg fun hmapped => hmapped.2 rfl, if_neg fun h => hout h.2]
    · rw [if_neg fun h => Nat.not_lt.mpr hge h.1, if_neg]
      rintro ⟨-, rfl | rfl⟩
      · exact Nat.not_lt.mpr hge (by decide)
      · exact Nat.not_lt.mpr hge lastPage_lt
  · rw [if_neg hne, if_neg fun hzero => hne hzero.1]
    rfl

theorem initializeMemory_tabled :
    (initializeMemory memory swapFile cells table stale).Tabled := by
  have htable := initializeMemory_tableOf memory swapFile cells table stale
  have hplace := initializeMemory_place memory swapFile cells table stale
  have hzero : ∀ {t found},
      (initializeMemory memory swapFile cells table stale).tableOf t = some found →
        t = 0 := by
    intro t found hfound
    rw [htable] at hfound
    split at hfound
    · next heq => exact heq
    · cases hfound
  refine
    { apart := ?_
      ranged := ?_
      slots := ⟨?_, ?_⟩
      beyond := ?_
      alive := ?_
      count := ?_
      lastMapped := ?_ }
  · intro t u one other hone hother hne
    exact absurd ((hzero hone).trans (hzero hother).symm) hne
  · rintro ⟨t, q⟩ frame hframe
    rw [hplace] at hframe
    split at hframe
    · next hmain =>
        obtain rfl := Option.some.inj hframe
        rcases hmain.2 with rfl | rfl
        · decide
        · decide
    · cases hframe
  · intro j hj
    obtain rfl := Nat.lt_one_iff.mp hj
    nofun
  · rfl
  · intro t ht
    exact initializeMemory_pageTables _ _ _ _ _ (Nat.ne_of_gt ht)
  · intro t ht
    refine Nat.lt_one_iff.mpr (Classical.not_not.mp fun hne => ht ?_)
    exact initializeMemory_threads _ _ _ _ _ hne
  · exact Nat.le_of_lt (by decide : 1 < maxThreads)
  · intro t found hfound
    obtain rfl := hzero hfound
    rw [Ne, ← place_eq_none hfound lastPage_lt, hplace, if_pos ⟨rfl, Or.inr rfl⟩]
    nofun

end Start

theorem Reachable.tabled {s : Paging} (h : Reachable s) :
    s.Tabled ∧ s.scheduler.Steady := by
  induction h with
  | start memory swapFile cells table stale =>
      exact ⟨initializeMemory_tabled memory swapFile cells table stale,
        initializeMemory_steady memory swapFile cells table stale⟩
  | step event _ hcurrent hadmitted hnext ih =>
      exact step_tabled ih.1 ih.2 hcurrent hadmitted hnext

end RutgersOS.Assignment2.Paging
