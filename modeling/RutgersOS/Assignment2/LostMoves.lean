import RutgersOS.Assignment2.OutOfFrames
import RutgersOS.Assignment2.Protection

namespace RutgersOS.Assignment2.Paging.Exhausted

open RutgersOS.Memory RutgersOS.Pthread

/-! What the calls do once every frame is in use: `swap_out` returns 6969, and its
callers write that to the tables. -/

def Full (s : Paging) : Prop :=
  ∀ frame, frame < totalPages → s.masterTable frame = true

/-- No page gets lost, and `masterTable` is not written beyond its end. -/
structure Intact (s next : Paging) : Prop where
  mapped : ∀ t table q, s.tableOf t = some table → q < memoryPages →
    s.cells (table + q) ≠ unmapped → next.cells (table + q) ≠ unmapped
  marks : ∀ frame, totalPages ≤ frame → next.masterTable frame = s.masterTable frame
  logical : ∀ t table q, s.tableOf t = some table →
    next.logicalMemory (t, q) = s.logicalMemory (t, q)

theorem Full.nextFreePage {s : Paging} (h : Full s) : s.nextFreePage = none := by
  cases hfirst : s.nextFreePage with
  | none => rfl
  | some frame =>
      obtain ⟨hlt, hfree, -⟩ := nextFreePage_spec hfirst
      rw [h frame hlt] at hfree
      cases hfree

theorem Full.congr {s next : Paging} (h : Full s) (hsame : next.masterTable = s.masterTable) :
    Full next := by
  intro frame hlt
  rw [hsame]
  exact h frame hlt

theorem Full.mark {s next : Paging} {frame : Nat} (h : Full s)
    (hmark : next.masterTable = Function.update s.masterTable frame true) : Full next := by
  intro other hlt
  rw [hmark]
  exact update_open (h other hlt)

section Moves

variable {stray : Nat} (hstray : totalPages ≤ stray)

include hstray

theorem swapOut_full {s : Paging} (h : Full s) (page : Nat) :
    swapOut stray s page = (unmapped, s.protect page true) := by
  have hlimits : memoryPages < totalPages := by decide
  have hnone : nextFreePage stray s = stray := by
    rw [nextFreePage, h.nextFreePage]
    rfl
  rw [swapOut, hnone]
  dsimp only
  rw [if_neg (by omega), if_neg (by omega)]

/-- The entry is unmapped, and index 6969 of `masterTable` is written. -/
theorem rehome_full {s : Paging} (h : Full s) (page cell : Nat) :
    rehome stray s page cell =
      ((s.protect page true).setCell cell unmapped).mark unmapped true := by
  rw [rehome, swapOut_full hstray h]

theorem swapOutPages_full {table : Nat} (n : Nat) : ∀ {s next : Paging} {i storedi : Nat},
    Full s → swapOutPages stray table s i n = some (storedi, next) →
      Full next ∧ next.pageTables = s.pageTables ∧
        (∀ cell, s.cells cell = unmapped → next.cells cell = unmapped) ∧
        next.cells (table + i) = unmapped := by
  induction n with
  | zero => exact fun _ => nofun
  | succ n ih =>
      intro s next i storedi hfull h
      rw [swapOutPages] at h
      split at h
      · next hblank =>
          obtain ⟨-, rfl⟩ := Prod.mk.inj (Option.some.inj h)
          exact ⟨hfull, rfl, fun _ => id, hblank⟩
      · rw [rehome_full hstray hfull] at h
        obtain ⟨hfull', htables, hblanks, -⟩ := ih (hfull.mark rfl) h
        have hmoved : ∀ cell, s.cells cell = unmapped ∨ cell = table + i →
            next.cells cell = unmapped := by
          intro cell hcell
          apply hblanks
          change Function.update s.cells (table + i) unmapped cell = unmapped
          rw [Function.update_apply]
          split
          · rfl
          · next hne => exact hcell.resolve_right hne
        exact ⟨hfull', htables, fun cell hblank => hmoved cell (Or.inl hblank),
          hmoved _ (Or.inr rfl)⟩

theorem switchOut_full {s next : Paging} {table : Nat} (hfull : Full s)
    (h : switchOut stray s table = some next) :
    next.cells table = unmapped ∧ next.pageTables = s.pageTables := by
  obtain ⟨⟨storedi, mid⟩, hmid, heq⟩ := Option.bind_eq_some_iff.mp h
  obtain ⟨hfull', htables, -, hfirst⟩ := swapOutPages_full hstray _ hfull hmid
  dsimp only at heq
  rw [swapOut_full hstray hfull'] at heq
  obtain rfl := Option.some.inj heq
  refine ⟨?_, htables⟩
  change Function.update mid.cells (table + (memoryPages - 1)) unmapped table = unmapped
  rw [Function.update_apply]
  split
  · rfl
  · exact hfirst

end Moves

/-- What `evict` does first leaves the entries that are 6969. -/
def KeepsBlanks (evict : Paging → Option Paging) : Prop :=
  ∀ s next cell, evict s = some next → s.cells cell = unmapped → next.cells cell = unmapped

theorem keepsBlanks_some : KeepsBlanks some := by
  intro s next cell h hblank
  obtain rfl := Option.some.inj h
  exact hblank

theorem bringIn_blank {evict : Paging → Option Paging} (hevict : KeepsBlanks evict)
    {s next : Paging} {table i cell : Nat} (hne : cell ≠ table + i)
    (hblank : s.cells cell = unmapped) (h : s.bringIn evict table i = some next) :
    next.cells cell = unmapped := by
  rcases bringIn_spec h with ⟨-, rfl⟩ | ⟨-, mid, hmid, hfetched⟩
  · exact (Function.update_of_ne hne _ _).trans hblank
  · rw [hfetched.cells, Function.update_of_ne hne]
    exact hevict s mid cell hmid hblank

/-- The loop stops at the first entry that is 6969. -/
theorem bringInPages_blank {evict : Nat → Paging → Option Paging} {table cell : Nat}
    (hevict : ∀ i, i < memoryPages → KeepsBlanks (evict i)) (n : Nat) :
    ∀ {s next : Paging} {i : Nat}, i + n ≤ memoryPages → s.cells cell = unmapped →
      bringInPages evict table s i n = some next → next.cells cell = unmapped := by
  induction n with
  | zero => exact fun _ _ => nofun
  | succ n ih =>
      intro s next i hi hblank h
      rw [bringInPages] at h
      split at h
      · obtain rfl := Option.some.inj h
        exact hblank
      · next hmapped =>
          obtain ⟨mid, hmid, hrest⟩ := Option.bind_eq_some_iff.mp h
          have hne : cell ≠ table + i := by
            rintro rfl
            exact hmapped hblank
          exact ih (by omega) (bringIn_blank (hevict i (by omega)) hne hblank hmid) hrest

theorem switchIn_blank {s next : Paging} {table cell : Nat} (hne : cell ≠ table + lastPage)
    (hblank : s.cells cell = unmapped) (h : s.switchIn table = some next) :
    next.cells cell = unmapped := by
  obtain ⟨mid, hmid, hrest⟩ := Option.bind_eq_some_iff.mp h
  exact bringIn_blank keepsBlanks_some hne
    (bringInPages_blank (fun _ _ => keepsBlanks_some) _ (Nat.le_of_eq (Nat.zero_add _)) hblank
      hmid) hrest

theorem first_ne_last {s : Paging} (h : s.Tabled) {t u table other : Nat}
    (htable : s.tableOf t = some table) (hother : s.tableOf u = some other) :
    table ≠ other + lastPage := by
  have hlast : lastPage = 1535 := rfl
  have hpages : memoryPages = 1536 := rfl
  rcases Classical.em (t = u) with rfl | hne
  · obtain rfl := Option.some.inj (htable.symm.trans hother)
    omega
  · have hbounds := h.apart t u table other htable hother hne
    omega

theorem yield_full {stray : Nat} (hstray : totalPages ≤ stray) {s next : Paging}
    {c table : Nat} (hfull : Full s) (hpending : s.scheduler.Pending)
    (hcurrent : s.scheduler.current = some c) (htable : s.pageTables c = some table)
    (hapart : ∀ u other, s.scheduler.Alive u → s.pageTables u = some other →
      table ≠ other + lastPage)
    (hmoves : ∀ scheduler, s.scheduler.myPthreadYield ≠ some (scheduler, .stay))
    (h : myPthreadYield stray s = some next) : next.cells table = unmapped := by
  obtain ⟨⟨scheduler, switch⟩, hyield, hpages⟩ := Option.bind_eq_some_iff.mp h
  obtain ⟨other, switch', hother, hyields, -⟩ := hpending.yields
  obtain ⟨rfl, rfl⟩ := Prod.mk.inj (Option.some.inj (hyield.symm.trans hother))
  cases hyields.hands with
  | stay => exact absurd hyield (hmoves scheduler)
  | resume hidle =>
      rw [hcurrent] at hidle
      cases hidle
  | swap hrunning _ _ halive =>
      obtain rfl := Option.some.inj (hcurrent.symm.trans hrunning)
      obtain ⟨mine, hmine, hrest⟩ := Option.bind_eq_some_iff.mp hpages
      obtain rfl := Option.some.inj (htable.symm.trans hmine)
      obtain ⟨target, hslot, hswap⟩ := Option.bind_eq_some_iff.mp hrest
      obtain ⟨mid, hout, hin⟩ := Option.bind_eq_some_iff.mp hswap
      obtain ⟨hblank, -⟩ :=
        switchOut_full hstray (s := { s with scheduler := scheduler }) hfull hout
      exact switchIn_blank (hapart _ target halive hslot) hblank hin

section Evictions

variable {stray : Nat} (hstray : totalPages ≤ stray)

include hstray

theorem evictEntry_full (frame table : Nat) {s : Paging} (hfull : Full s) (n : Nat) :
    ∀ k, (∀ i, k ≤ i → i < k + n → s.cells (table + i) ≠ frame) ∧
        evictEntry stray frame table s k n = s ∨
      Full (evictEntry stray frame table s k n) ∧
        (evictEntry stray frame table s k n).masterTable unmapped = true ∧
        (evictEntry stray frame table s k n).pageTables = s.pageTables := by
  induction n with
  | zero => exact fun k => Or.inl ⟨fun i hle hlt => absurd hlt (Nat.not_lt.mpr hle), rfl⟩
  | succ n ih =>
      intro k
      rw [evictEntry]
      split
      · right
        rw [rehome_full hstray hfull]
        have hmarked : Function.update s.masterTable unmapped true unmapped = true :=
          Function.update_self _ _ _
        exact ⟨hfull.mark rfl, hmarked, rfl⟩
      · next hother =>
          apply (ih (k + 1)).imp_left
          rintro ⟨hnone, hsame⟩
          refine ⟨fun i hle hlt => ?_, hsame⟩
          rcases Nat.lt_or_eq_of_le hle with hmore | rfl
          · exact hnone i hmore (by omega)
          · exact hother

theorem evictFrom_full {frame : Nat} (n : Nat) : ∀ {s next : Paging} {j : Nat}, Full s →
    evictFrom stray frame s j n = some next →
      (s.masterTable unmapped = true ∨ ∃ j' table k, j ≤ j' ∧
        (∀ m, m ≤ j' → s.pageTables m ≠ none) ∧ s.pageTables j' = some table ∧
          k < memoryPages ∧ s.cells (table + k) = frame) →
        next.masterTable unmapped = true := by
  induction n with
  | zero => exact fun _ => nofun
  | succ n ih =>
      intro s next j hfull h hcause
      rw [evictFrom] at h
      split at h
      · next hnull =>
          obtain rfl := Option.some.inj h
          apply hcause.resolve_right
          rintro ⟨j', table, k, hle, hslots, -⟩
          exact hslots j hle hnull
      · next other hother =>
          rcases evictEntry_full hstray frame other hfull memoryPages 0 with
            ⟨hnone, hsame⟩ | ⟨hfull', hmarked, -⟩
          · rw [hsame] at h
            apply ih hfull h
            apply hcause.imp_right
            rintro ⟨j', table, k, hle, hslots, htable, hk, hcell⟩
            refine ⟨j', table, k, Nat.lt_of_le_of_ne hle ?_, hslots, htable, hk, hcell⟩
            rintro rfl
            obtain rfl := Option.some.inj (hother.symm.trans htable)
            exact hnone k (Nat.zero_le k) (by omega) hcell
          · exact ih hfull' h (Or.inl hmarked)

theorem takeFrame_full {s : Paging} (hfull : Full s) (table offset cell : Nat) :
    Full (takeFrame stray s table offset cell) ∧
      (takeFrame stray s table offset cell).masterTable unmapped = true := by
  rw [takeFrame, swapOut_full hstray hfull]
  have hmarks : ∀ frame, frame = unmapped ∨ s.masterTable frame = true →
      Function.update (Function.update (Function.update s.masterTable offset false)
        unmapped true) offset true frame = true := by
    intro frame hframe
    rw [Function.update_apply]
    split
    · rfl
    · next hne =>
        rw [Function.update_apply]
        split
        · rfl
        · next hne' =>
            rw [Function.update_of_ne hne]
            exact hframe.resolve_left hne'
  exact ⟨fun frame hlt => hmarks frame (Or.inr (hfull frame hlt)), hmarks unmapped (Or.inl rfl)⟩

theorem scanTables_full {table offset : Nat} (n : Nat) : ∀ {s next : Paging} {i : Nat},
    Full s → scanTables stray table offset s i n = some next →
      Full next ∧ next.masterTable unmapped = true := by
  induction n with
  | zero => exact fun _ => nofun
  | succ n ih =>
      intro s next i hfull h
      obtain ⟨other, -, hscan⟩ := Option.bind_eq_some_iff.mp h
      obtain ⟨result, -, hrest⟩ := Option.bind_eq_some_iff.mp hscan
      cases result with
      | found j =>
          obtain rfl := Option.some.inj hrest
          have htaken := takeFrame_full hstray hfull table offset (other + j)
          exact htaken
      | ended =>
          refine ih ?_ hrest
          split
          · exact (takeFrame_full hstray hfull table offset _).1
          · exact hfull

theorem touch_full {s next : Paging} {address : Int} (hfull : Full s)
    (h : touch stray s address = some next) :
    next = s ∧ (∀ table, ¬ s.Faults address table) ∨
      Full next ∧ next.masterTable unmapped = true := by
  unfold touch at h
  split at h
  · next hin =>
      unfold Exhausted.touchPage at h
      split at h
      · next hopen =>
          left
          refine ⟨(Option.some.inj h).symm, fun table hfault => ?_⟩
          rw [hfault.closed] at hopen
          cases hopen
      · right
        obtain ⟨t, -, hmid⟩ := Option.bind_eq_some_iff.mp h
        obtain ⟨table, -, hrest⟩ := Option.bind_eq_some_iff.mp hmid
        have hoffset : (address / pageSize).toNat < totalPages :=
          Nat.lt_of_le_of_lt (page_of_touch hin.1 hin.2) (by decide)
        rw [if_neg (by rw [hfull _ hoffset]; decide)] at hrest
        exact scanTables_full hstray _ hfull hrest
  · cases h

end Evictions

/-- The entries that name the frame are 6969 or as they were, and nothing else is
written to the tables. -/
structure Displaced (frame : Nat) (s next : Paging) : Prop where
  full : Full next
  pageTables : next.pageTables = s.pageTables
  cells : ∀ cell, next.cells cell = s.cells cell ∨
    s.cells cell = frame ∧ next.cells cell = unmapped

def LosesOne (frame table k : Nat) (s next : Paging) : Prop :=
  ∃ k', k' ≤ k ∧ s.cells (table + k') = frame ∧ next.cells (table + k') = unmapped

theorem Displaced.refl {frame : Nat} {s : Paging} (hfull : Full s) : Displaced frame s s :=
  ⟨hfull, rfl, fun _ => Or.inl rfl⟩

theorem Displaced.named {frame cell : Nat} {s next : Paging} (h : Displaced frame s next)
    (hnames : next.cells cell = frame) : s.cells cell = frame := by
  rcases h.cells cell with hsame | ⟨hold, -⟩
  · exact hsame.symm.trans hnames
  · exact hold

theorem Displaced.blank {frame cell : Nat} {s next : Paging} (h : Displaced frame s next)
    (hblank : s.cells cell = unmapped) : next.cells cell = unmapped := by
  rcases h.cells cell with hsame | ⟨-, hnew⟩
  · exact hsame.trans hblank
  · exact hnew

theorem Displaced.trans {frame : Nat} {s mid next : Paging} (h : Displaced frame s mid)
    (h' : Displaced frame mid next) : Displaced frame s next where
  full := h'.full
  pageTables := h'.pageTables.trans h.pageTables
  cells cell := by
    rcases h'.cells cell with hsame | ⟨hnames, hnew⟩
    · rw [hsame]
      exact h.cells cell
    · exact Or.inr ⟨h.named hnames, hnew⟩

section Displacements

variable {stray : Nat} (hstray : totalPages ≤ stray)

include hstray

theorem evictEntry_displaces (frame table : Nat) {s : Paging} (hfull : Full s) (n : Nat) :
    ∀ k, Displaced frame s (evictEntry stray frame table s k n) ∧
      ∀ i, k ≤ i → i < k + n → s.cells (table + i) = frame →
        LosesOne frame table i s (evictEntry stray frame table s k n) := by
  induction n with
  | zero => exact fun k => ⟨.refl hfull, fun i hle hlt => absurd hlt (Nat.not_lt.mpr hle)⟩
  | succ n ih =>
      intro k
      rw [evictEntry]
      split
      · next hfound =>
          rw [rehome_full hstray hfull]
          have hlost : Function.update s.cells (table + k) unmapped (table + k) = unmapped :=
            Function.update_self _ _ _
          refine ⟨⟨hfull.mark rfl, rfl, fun cell => ?_⟩, fun i hle _ _ => ⟨k, hle, hfound, hlost⟩⟩
          change Function.update s.cells (table + k) unmapped cell = _ ∨ _ ∧
            Function.update s.cells (table + k) unmapped cell = _
          rcases Classical.em (cell = table + k) with rfl | hne
          · exact Or.inr ⟨hfound, hlost⟩
          · exact Or.inl (Function.update_of_ne hne _ _)
      · next hother =>
          obtain ⟨hdisplaced, hloses⟩ := ih (k + 1)
          refine ⟨hdisplaced, fun i hle hlt hnames => ?_⟩
          rcases Nat.lt_or_eq_of_le hle with hmore | rfl
          · exact hloses i hmore (by omega) hnames
          · exact absurd hnames hother

theorem evictFrom_displaces {frame : Nat} (n : Nat) :
    ∀ {s next : Paging} {j : Nat}, Full s → evictFrom stray frame s j n = some next →
      Displaced frame s next ∧ ∀ j' table k, j ≤ j' → (∀ m, m ≤ j' → s.pageTables m ≠ none) →
        s.pageTables j' = some table → k < memoryPages → s.cells (table + k) = frame →
          LosesOne frame table k s next := by
  induction n with
  | zero => exact fun _ => nofun
  | succ n ih =>
      intro s next j hfull h
      rw [evictFrom] at h
      split at h
      · next hnull =>
          obtain rfl := Option.some.inj h
          exact ⟨.refl hfull, fun j' table k hle hslots => absurd hnull (hslots j hle)⟩
      · next other hother =>
          obtain ⟨hfirst, hloses⟩ := evictEntry_displaces hstray frame other hfull memoryPages 0
          obtain ⟨hrest, hlater⟩ := ih hfirst.full h
          refine ⟨hfirst.trans hrest, fun j' table k hle hslots htable hk hnames => ?_⟩
          rcases Nat.lt_or_eq_of_le hle with hmore | rfl
          · rcases hfirst.cells (table + k) with hsame | ⟨-, hnew⟩
            · obtain ⟨k', hle', hnames', hnew'⟩ := hlater j' table k hmore
                (fun m hm => hfirst.pageTables ▸ hslots m hm) (hfirst.pageTables ▸ htable) hk
                (hsame.trans hnames)
              exact ⟨k', hle', hfirst.named hnames', hnew'⟩
            · exact ⟨k, Nat.le_refl k, hnames, hrest.blank hnew⟩
          · obtain rfl := Option.some.inj (hother.symm.trans htable)
            obtain ⟨k', hle', hnames', hnew'⟩ := hloses k (Nat.zero_le k) (by omega) hnames
            exact ⟨k', hle', hnames', hrest.blank hnew'⟩

end Displacements

theorem rehome_cells (stray : Nat) (s : Paging) (page cell : Nat) :
    (rehome stray s page cell).cells =
      Function.update s.cells cell (swapOut stray s page).1 := by
  have hsame : (swapOut stray s page).2.cells = s.cells := by
    unfold swapOut
    dsimp only
    split
    · rfl
    · split
      · unfold writeSlot
        split
        · rfl
        · rfl
      · rfl
  rw [rehome, ← hsame]
  rfl

theorem rehome_blank {stray page cell : Nat} {s : Paging} (hpage : page < memoryPages)
    (hnames : s.cells cell = page) {other : Nat} (hblank : s.cells other = unmapped) :
    (rehome stray s page cell).cells other = unmapped := by
  have hne : other ≠ cell := by
    rintro rfl
    exact lt_unmapped (page_lt_total hpage) (hnames.symm.trans hblank)
  rw [rehome_cells, Function.update_of_ne hne]
  exact hblank

theorem evictEntry_blank {stray frame table cell : Nat} (hframe : frame < memoryPages)
    {s : Paging} (hblank : s.cells cell = unmapped) (n : Nat) :
    ∀ k, (evictEntry stray frame table s k n).cells cell = unmapped := by
  induction n with
  | zero => exact fun _ => hblank
  | succ n ih =>
      intro k
      rw [evictEntry]
      split
      · next hnames => exact rehome_blank hframe hnames hblank
      · exact ih (k + 1)

theorem keepsBlanks_evict (stray : Nat) {frame : Nat} (hframe : frame < memoryPages) :
    KeepsBlanks (evict stray frame) := by
  have hfrom : ∀ n s next j cell, evictFrom stray frame s j n = some next →
      s.cells cell = unmapped → next.cells cell = unmapped := by
    intro n
    induction n with
    | zero => exact fun _ _ _ _ => nofun
    | succ n ih =>
        intro s next j cell h hblank
        rw [evictFrom] at h
        split at h
        · obtain rfl := Option.some.inj h
          exact hblank
        · exact ih _ _ _ _ h (evictEntry_blank hframe hblank _ _)
  exact fun s next cell => hfrom maxThreads s next 0 cell

theorem keepsBlanks_evictLast (stray : Nat) : KeepsBlanks (evictLast stray) := by
  have hfrom : ∀ n s next j cell, evictLastFrom stray s j n = some next →
      s.cells cell = unmapped → next.cells cell = unmapped := by
    intro n
    induction n with
    | zero => exact fun _ _ _ _ => nofun
    | succ n ih =>
        intro s next j cell h hblank
        rw [evictLastFrom] at h
        split at h
        · obtain rfl := Option.some.inj h
          exact hblank
        · split at h
          · next hnames =>
              obtain rfl := Option.some.inj h
              exact rehome_blank lastPage_lt hnames hblank
          · exact ih _ _ _ _ h hblank
  exact fun s next cell => hfrom maxThreads s next 0 cell

theorem bringInPages_inPlace {evict : Nat → Paging → Option Paging} {table q : Nat} (n : Nat) :
    ∀ {s next : Paging} {i : Nat}, Full s → i ≤ q →
      (∀ m, i ≤ m → m < q → m < memoryPages ∧ s.cells (table + m) = m) →
        bringInPages evict table s i n = some next → ∃ mid rest, Full mid ∧
          mid.cells = s.cells ∧ mid.pageTables = s.pageTables ∧ i + n = q + rest ∧
            bringInPages evict table mid q rest = some next := by
  induction n with
  | zero => exact fun _ _ _ => nofun
  | succ n ih =>
      intro s next i hfull hle hplaced h
      rcases Nat.lt_or_eq_of_le hle with hlt | rfl
      · obtain ⟨hi, hcell⟩ := hplaced i (Nat.le_refl i) hlt
        have hmapped : s.cells (table + i) ≠ unmapped := by
          rw [hcell]
          exact lt_unmapped (page_lt_total hi)
        rw [bringInPages, if_neg hmapped] at h
        obtain ⟨first, hfirst, hrest⟩ := Option.bind_eq_some_iff.mp h
        rcases bringIn_spec hfirst with ⟨-, rfl⟩ | ⟨haway, -⟩
        · have hcells : Function.update s.cells (table + i) i = s.cells :=
            Function.update_eq_self_iff.mpr hcell.symm
          obtain ⟨mid, rest, hmid, hsame, htables, hcount, hlater⟩ := ih (hfull.mark rfl) hlt
            (fun m hm hmq => by
              change _ ∧ Function.update s.cells (table + i) i _ = _
              rw [hcells]
              exact hplaced m (Nat.le_of_lt hm) hmq) hrest
          exact ⟨mid, rest, hmid, hsame.trans hcells, htables, by omega, hlater⟩
        · exact absurd hcell haway
      · exact ⟨s, n + 1, hfull, rfl, rfl, rfl, h⟩

def Unmaps (s next : Paging) : Prop :=
  ∃ t table q, s.tableOf t = some table ∧ q < memoryPages ∧
    s.cells (table + q) ≠ unmapped ∧ next.cells (table + q) = unmapped

/-- The first page of `u` that is away comes to a place that another page is in. -/
structure EvictsPage (s : Paging) (u table q : Nat) : Prop where
  lt : q < memoryPages
  front : ∀ i, i < q → s.cells (table + i) = i
  away : s.cells (table + q) ≠ q
  mapped : s.cells (table + q) ≠ unmapped
  held : ∃ t other k, s.tableOf t = some other ∧ k < memoryPages ∧ s.cells (other + k) = q ∧
    (t, k) ≠ (u, lastPage)

/-- Only the last page is away, and another one is in its place. -/
structure EvictsLast (s : Paging) (table n : Nat) : Prop where
  lt : n < memoryPages
  front : ∀ i, i < n → s.cells (table + i) = i
  ended : s.cells (table + n) = unmapped
  away : s.cells (table + lastPage) ≠ lastPage
  held : ∃ j other, s.pageTables j = some other ∧ s.cells (other + lastPage) = lastPage

theorem tables_below {s : Paging} (htabled : s.Tabled) {j table : Nat}
    (htable : s.pageTables j = some table) : ∀ m, m ≤ j → s.pageTables m ≠ none := by
  intro m hm
  apply htabled.slots.below
  apply Nat.lt_of_le_of_lt hm
  apply Nat.not_le.mp
  intro hbeyond
  rw [htabled.beyond j hbeyond] at htable
  cases htable

theorem EvictsPage.congr {s mid : Paging} {u table q : Nat} (h : EvictsPage s u table q)
    (htable : mid.tableOf = s.tableOf) (hcells : mid.cells = s.cells) :
    EvictsPage mid u table q := by
  obtain ⟨hlt, hfront, haway, hmapped, hheld⟩ := h
  constructor
  · exact hlt
  · exact hcells ▸ hfront
  · exact hcells ▸ haway
  · exact hcells ▸ hmapped
  · rw [htable, hcells]
    exact hheld

theorem EvictsLast.congr {s mid : Paging} {table n : Nat} (h : EvictsLast s table n)
    (htables : mid.pageTables = s.pageTables) (hcells : mid.cells = s.cells) :
    EvictsLast mid table n := by
  obtain ⟨hlt, hfront, hended, haway, hheld⟩ := h
  constructor
  · exact hlt
  · exact hcells ▸ hfront
  · exact hcells ▸ hended
  · exact hcells ▸ haway
  · rw [htables, hcells]
    exact hheld

section Resumes

variable {stray : Nat} (hstray : totalPages ≤ stray) {s next : Paging} {u table : Nat}
  (hfull : Full s) (htabled : s.Tabled) (htable : s.tableOf u = some table)

include hstray in
theorem evictLastFrom_full (n : Nat) : ∀ {j : Nat}, Full s →
    evictLastFrom stray s j n = some next → (∃ j' other, j ≤ j' ∧
      (∀ m, m ≤ j' → s.pageTables m ≠ none) ∧ s.pageTables j' = some other ∧
        s.cells (other + lastPage) = lastPage) →
      next.masterTable unmapped = true ∧
        ∀ cell, s.cells cell ≠ lastPage → next.cells cell = s.cells cell := by
  induction n with
  | zero => exact fun _ => nofun
  | succ n ih =>
      intro j hfull h hheld
      rw [evictLastFrom] at h
      obtain ⟨j', other, hle, hslots, hother, hcell⟩ := hheld
      split at h
      · next hnull => exact absurd hnull (hslots j hle)
      · next first hfirst =>
          split at h
          · next hnames =>
              rw [rehome_full hstray hfull] at h
              obtain rfl := Option.some.inj h
              have hmarked : Function.update s.masterTable unmapped true unmapped = true :=
                Function.update_self _ _ _
              refine ⟨hmarked, fun cell haway => ?_⟩
              have hne : cell ≠ first + (memoryPages - 1) := by
                rintro rfl
                exact haway hnames
              exact Function.update_of_ne hne _ _
          · next hother' =>
              refine ih hfull h ⟨j', other, Nat.lt_of_le_of_ne hle ?_, hslots, hother, hcell⟩
              rintro rfl
              obtain rfl := Option.some.inj (hfirst.symm.trans hother)
              exact hother' hcell

include hstray hfull htabled htable

theorem resume_unmaps {q : Nat} (hevicts : EvictsPage s u table q)
    (h : resumePages stray s table = some next) : Unmaps s next := by
  obtain ⟨after, hafter, hlast⟩ := Option.bind_eq_some_iff.mp h
  obtain ⟨mid, rest, hmid, hcells, htables, hcount, hbring⟩ :=
    bringInPages_inPlace memoryPages hfull (Nat.zero_le q)
      (fun m _ hm => ⟨Nat.lt_trans hm hevicts.lt, hevicts.front m hm⟩) hafter
  obtain ⟨t, other, k, hother, hk, hnames, hne⟩ := hevicts.held
  have hlt := hevicts.lt
  obtain ⟨rest, rfl⟩ : ∃ more, rest = more + 1 := Nat.exists_eq_add_one.mpr (by omega)
  rw [bringInPages, if_neg (hcells.symm ▸ hevicts.mapped)] at hbring
  obtain ⟨first, hfirst, hmore⟩ := Option.bind_eq_some_iff.mp hbring
  rcases bringIn_spec hfirst with ⟨hplaced, -⟩ | ⟨-, evicted, hevict, hfetched⟩
  · exact absurd (hcells ▸ hplaced) hevicts.away
  obtain ⟨-, hloses⟩ := evictFrom_displaces hstray maxThreads hmid hevict
  have hslot := pageTables_of_tableOf hother
  obtain ⟨k', hle, hold, hnew⟩ := hloses t other k (Nat.zero_le t)
    (fun m hm => htables.symm ▸ tables_below htabled hslot m hm) (htables.symm ▸ hslot) hk
    (hcells.symm ▸ hnames)
  rw [hcells] at hold
  have haway : other + k' ≠ table + q := by
    intro heq
    rw [heq] at hold
    exact hevicts.away hold
  have hend : other + k' ≠ table + lastPage := by
    have hpages : memoryPages = 1536 := rfl
    have hlastPage : lastPage = 1535 := rfl
    rcases Classical.em (t = u) with rfl | hdiffers
    · obtain rfl := Option.some.inj (htable.symm.trans hother)
      have hinner : k ≠ lastPage := by
        rintro rfl
        exact hne rfl
      omega
    · have hbounds := htabled.apart t u other table hother htable hdiffers
      omega
  refine ⟨t, other, k', hother, Nat.lt_of_le_of_lt hle hk, ?_, ?_⟩
  · rw [hold]
    exact lt_unmapped (page_lt_total hlt)
  · apply bringIn_blank (keepsBlanks_evictLast stray) hend _ hlast
    apply bringInPages_blank (fun _ => keepsBlanks_evict stray) _ (by omega) _ hmore
    rw [hfetched.cells, Function.update_of_ne haway]
    exact hnew

theorem resume_marks {n : Nat} (hevicts : EvictsLast s table n)
    (h : resumePages stray s table = some next) : next.masterTable unmapped = true := by
  obtain ⟨after, hafter, hlast⟩ := Option.bind_eq_some_iff.mp h
  obtain ⟨mid, rest, hmid, hcells, htables, hcount, hbring⟩ :=
    bringInPages_inPlace memoryPages hfull (Nat.zero_le n)
      (fun m _ hm => ⟨Nat.lt_trans hm hevicts.lt, hevicts.front m hm⟩) hafter
  obtain ⟨j, other, hother, hnames⟩ := hevicts.held
  have hlt := hevicts.lt
  obtain ⟨rest, rfl⟩ : ∃ more, rest = more + 1 := Nat.exists_eq_add_one.mpr (by omega)
  rw [bringInPages, if_pos (hcells.symm ▸ hevicts.ended)] at hbring
  obtain rfl := Option.some.inj hbring
  have haway : mid.cells (table + lastPage) ≠ lastPage := hcells.symm ▸ hevicts.away
  rcases bringIn_spec hlast with ⟨hplaced, -⟩ | ⟨-, evicted, hevict, hfetched⟩
  · exact absurd hplaced haway
  obtain ⟨hmarked, hsame⟩ := evictLastFrom_full hstray maxThreads hmid hevict
    ⟨j, other, Nat.zero_le j, fun m hm => htables.symm ▸ tables_below htabled hother m hm,
      htables.symm ▸ hother, hcells.symm ▸ hnames⟩
  have hmapped : unmapped ≠ evicted.cells (table + (memoryPages - 1)) := by
    have hkept := hsame _ haway
    rw [hcells] at hkept
    exact fun heq => htabled.lastMapped u table htable (hkept.symm.trans heq.symm)
  rw [hfetched.masterTable, Function.update_of_ne (by decide), Function.update_of_ne hmapped]
  exact hmarked

end Resumes

end RutgersOS.Assignment2.Paging.Exhausted
