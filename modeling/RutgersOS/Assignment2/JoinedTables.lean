import RutgersOS.Assignment2.Exits
import RutgersOS.Assignment2.OwnerSearch

namespace RutgersOS.Assignment2.Paging

open RutgersOS.Memory RutgersOS.Pthread

def LiveTables (s : Paging) : Prop :=
  ∀ j table, s.pageTables j = some table → LiveTable s.LiveCell table

/-- The search over the last entries meets a match before any other memory. -/
def LastUnsearched (s : Paging) : Prop :=
  ∀ i table, s.pageTables i = some table →
    (∀ m, m < i → ∀ before, s.pageTables m = some before →
      s.cells (before + lastPage) ≠ lastPage) → LiveTable s.LiveCell table

/-- The copies after a `switchOut` search nothing, nor do the others for the pages
that are in their frames. -/
def SwitchUnsearched (s : Paging) : Switch → Prop
  | .resume u => s.LiveTables ∨ ∃ stop, s.EndsAt u stop ∧
      (∀ q, q < stop → s.place (u, q) = some q) ∧
        (s.place (u, lastPage) = some lastPage ∨ s.LastUnsearched)
  | _ => True

def YieldUnsearched (s : Paging) : Prop :=
  ∀ scheduler switch, s.scheduler.myPthreadYield = some (scheduler, switch) →
    SwitchUnsearched { s with scheduler := scheduler } switch

/-- The scan of `seg_handler` ends at an entry before the last ones, and has been in
such memory only. -/
def FoundLive (s : Paging) (frame : Nat) : Prop :=
  ∃ i table j, s.pageTables i = some table ∧
    scanEntries frame table s 0 memoryPages = some (.found j) ∧
    (∀ i', i' ≤ i → ∀ other, s.pageTables i' = some other →
      LiveTable s.LiveCell other) ∧
    ∀ i', i' < i → ∀ other, s.pageTables i' = some other →
      scanEntries frame other s 0 memoryPages = some .ended ∧
        s.cells (other + lastPage) ≠ frame

theorem liveTable_of_tableOf {s : Paging} {t table : Nat} (h : s.tableOf t = some table) :
    LiveTable s.LiveCell table :=
  fun q hq => ⟨t, table, q, h, hq, rfl⟩

section Switches

variable {live : Nat → Prop} {other : Nat → Nat} {s : Paging} {table : Nat}

theorem overlay_switchIn (htable : LiveTable live table) :
    (s.overlay live other).switchIn table =
      (s.switchIn table).map (overlay live other) := by
  have hpages : bringInPages (fun _ => some) table (s.overlay live other) 0 memoryPages =
      (bringInPages (fun _ => some) table s 0 memoryPages).map (overlay live other) := by
    refine overlay_bringInPages htable ?_ (fun _ _ _ => rfl) memoryPages rfl
      (Nat.le_of_eq (Nat.zero_add memoryPages))
    intro _ first mid heq
    rw [Option.some.inj heq]
  unfold switchIn
  rw [hpages]
  cases bringInPages (fun _ => some) table s 0 memoryPages with
  | none => rfl
  | some mid => exact overlay_bringIn htable lastPage_lt fun _ => rfl

theorem evictFrom_pageTables {frame : Nat} {first mid : Paging}
    (h : evict frame first = some mid) : mid.pageTables = first.pageTables :=
  (evictFrom_rewrites maxThreads h).pageTables

theorem overlay_resumePages (htable : LiveTable live table)
    (hlive : ∀ j found, s.pageTables j = some found → LiveTable live found) :
    (s.overlay live other).resumePages table =
      (s.resumePages table).map (overlay live other) := by
  have hpages : bringInPages evict table (s.overlay live other) 0 memoryPages =
      (bringInPages evict table s 0 memoryPages).map (overlay live other) := by
    refine overlay_bringInPages htable (fun _ _ _ => evictFrom_pageTables) ?_ memoryPages rfl
      (Nat.le_of_eq (Nat.zero_add memoryPages))
    intro i first hslots
    exact overlay_evictFrom maxThreads fun j found hfound =>
      hlive j found (by rwa [← hslots])
  unfold resumePages
  rw [hpages]
  cases hmid : bringInPages evict table s 0 memoryPages with
  | none => rfl
  | some mid =>
      have hrewrites : Rewrites s mid := bringInPages_rewrites
        (fun _ _ _ => evictFrom_rewrites _) _ (Nat.le_of_eq (Nat.zero_add _)) hmid
      refine overlay_bringIn htable lastPage_lt fun _ => ?_
      apply overlay_evictLastFrom _ maxThreads
      · exact fun m hm => absurd hm (Nat.not_lt_zero m)
      · intro j found hfound _
        exact hlive j found (by rwa [← hrewrites.pageTables])

theorem bringInPages_inPlace {evict : Nat → Paging → Option Paging} {stop : Nat} (n : Nat) :
    ∀ {first next : Paging} {i : Nat}, (∀ k, k < stop → first.cells (table + k) = k) →
      first.cells (table + stop) = unmapped → i ≤ stop →
        bringInPages evict table first i n = some next →
          next.cells = first.cells ∧ next.pageTables = first.pageTables := by
  induction n with
  | zero => exact fun _ _ _ => nofun
  | succ n ih =>
      intro first next i hplaced hended hle h
      rw [bringInPages] at h
      rcases Nat.lt_or_eq_of_le hle with hmore | rfl
      · have hcell := hplaced i hmore
        split at h
        · obtain rfl := Option.some.inj h
          exact ⟨rfl, rfl⟩
        · obtain ⟨mid, hmid, hrest⟩ := Option.bind_eq_some_iff.mp h
          rcases bringIn_spec hmid with ⟨-, rfl⟩ | ⟨haway, -⟩
          · have hsame : ((first.setCell (table + i) i).mark i true).cells = first.cells := by
              change Function.update first.cells (table + i) i = first.cells
              rw [Function.update_eq_self_iff]
              exact hcell.symm
            obtain ⟨hcells, hpageTables⟩ := ih (hsame ▸ hplaced) (hsame ▸ hended) hmore hrest
            exact ⟨hcells.trans hsame, hpageTables⟩
          · exact absurd hcell haway
      · rw [if_pos hended] at h
        obtain rfl := Option.some.inj h
        exact ⟨rfl, rfl⟩

theorem overlay_resumePages_inPlace {stop : Nat} (htable : LiveTable live table)
    (hstop : stop < memoryPages) (hplaced : ∀ k, k < stop → s.cells (table + k) = k)
    (hended : s.cells (table + stop) = unmapped)
    (hlast : s.cells (table + lastPage) ≠ lastPage →
      ∀ i found, s.pageTables i = some found →
        (∀ m, m < i → ∀ before, s.pageTables m = some before →
          s.cells (before + lastPage) ≠ lastPage) → LiveTable live found) :
    (s.overlay live other).resumePages table =
      (s.resumePages table).map (overlay live other) := by
  have hplaced' : ∀ k, k < stop → (s.overlay live other).cells (table + k) = k :=
    fun k hk => (overlay_cells (htable k (Nat.lt_trans hk hstop))).trans (hplaced k hk)
  have hended' : (s.overlay live other).cells (table + stop) = unmapped :=
    (overlay_cells (htable stop hstop)).trans hended
  have hpages : bringInPages evict table (s.overlay live other) 0 memoryPages =
      (bringInPages evict table s 0 memoryPages).map (overlay live other) := by
    have hfirst : bringInPages evict table (s.overlay live other) 0 memoryPages =
        bringInPages (fun _ => some) table (s.overlay live other) 0 memoryPages :=
      bringInPages_inPlace_eq memoryPages hplaced' hended' (Nat.zero_le stop)
    have hsecond : bringInPages evict table s 0 memoryPages =
        bringInPages (fun _ => some) table s 0 memoryPages :=
      bringInPages_inPlace_eq memoryPages hplaced hended (Nat.zero_le stop)
    rw [hfirst, hsecond]
    refine overlay_bringInPages htable ?_ (fun _ _ _ => rfl) memoryPages rfl
      (Nat.le_of_eq (Nat.zero_add memoryPages))
    intro _ first mid heq
    rw [Option.some.inj heq]
  unfold resumePages
  rw [hpages]
  cases hmid : bringInPages evict table s 0 memoryPages with
  | none => rfl
  | some mid =>
      obtain ⟨hcells, hpageTables⟩ :=
        bringInPages_inPlace memoryPages hplaced hended (Nat.zero_le stop) hmid
      refine overlay_bringIn htable lastPage_lt fun haway => ?_
      apply overlay_evictLastFrom _ maxThreads
      · exact fun m hm => absurd hm (Nat.not_lt_zero m)
      · rw [hpageTables, hcells]
        exact hlast (hcells ▸ haway)

end Switches

theorem liveCell_congr {s next : Paging} (h : next.tableOf = s.tableOf) :
    next.LiveCell = s.LiveCell := by
  funext cell
  rw [LiveCell, LiveCell, h]

theorem switchPages_ignores {s : Paging} (htabled : s.Tabled) {switch : Switch}
    (hends : ∀ t u, switch = .swap t u → s.scheduler.Alive t ∧ s.scheduler.Alive u)
    (hnext : ∀ u, switch = .resume u → s.scheduler.Alive u)
    (hsafe : s.SwitchUnsearched switch) : Ignores (switchPages · switch) s := by
  intro other
  cases switch with
  | stay => rfl
  | resume u =>
      obtain ⟨table, htable, hslot⟩ := htabled.table (hnext u rfl)
      have hlive := liveTable_of_tableOf htable
      change (s.pageTables u).bind _ = Option.map _ ((s.pageTables u).bind _)
      rw [hslot, Option.bind_some, Option.bind_some]
      rcases hsafe with hall | ⟨stop, hstop, hplaced, hlast⟩
      · exact overlay_resumePages hlive hall
      · have hcell : ∀ q frame, s.place (u, q) = some frame → s.cells (table + q) = frame := by
          intro q frame hplace
          obtain ⟨found, hfound, -, hcell, -⟩ := place_eq_some.mp hplace
          rwa [Option.some.inj (htable.symm.trans hfound)]
        refine overlay_resumePages_inPlace hlive hstop.lt
          (fun k hk => hcell k k (hplaced k hk)) ((place_eq_none htable hstop.lt).mp hstop.ended)
          fun haway => ?_
        exact hlast.resolve_left fun hin => haway (hcell lastPage lastPage hin)
  | swap t u =>
      obtain ⟨halive, halive'⟩ := hends t u rfl
      obtain ⟨table, htable, hslot⟩ := htabled.table halive
      obtain ⟨table', htable', hslot'⟩ := htabled.table halive'
      change (s.pageTables t).bind _ = Option.map _ ((s.pageTables t).bind _)
      rw [hslot, Option.bind_some, Option.bind_some]
      change (s.pageTables u).bind _ = Option.map _ ((s.pageTables u).bind _)
      rw [hslot', Option.bind_some, Option.bind_some]
      change ((s.overlay s.LiveCell other).switchOut table).bind _ =
        Option.map _ ((s.switchOut table).bind _)
      rw [overlay_switchOut (liveTable_of_tableOf htable)]
      cases s.switchOut table with
      | none => rfl
      | some mid => exact overlay_switchIn (liveTable_of_tableOf htable')

theorem yield_ignores {s : Paging} (hpending : s.scheduler.Pending) (htabled : s.Tabled)
    (hsafe : s.YieldUnsearched) : Ignores myPthreadYield s := by
  intro other
  obtain ⟨scheduler, switch, hyield, hyields, hsteady⟩ := hpending.yields
  have hsame := rescheduled_threads hyields.threads hyields.threadIDS
  have hends : ∀ t u, switch = .swap t u → scheduler.Alive t ∧ scheduler.Alive u := by
    rintro t u rfl
    cases hyields.hands with
    | swap _ hgone _ halive => exact ⟨(hsame.alive t).mpr hgone, (hsame.alive u).mpr halive⟩
  have hnext : ∀ u, switch = .resume u → scheduler.Alive u := by
    rintro u rfl
    cases hyields.hands with
    | resume _ _ halive => exact (hsame.alive u).mpr halive
  have hswitch := switchPages_ignores (hsame.tabled htabled) hends hnext
    (hsafe scheduler switch hyield) other
  rw [liveCell_congr hsame.table] at hswitch
  change (s.scheduler.myPthreadYield).bind _ = Option.map _ ((s.scheduler.myPthreadYield).bind _)
  rw [hyield, Option.bind_some, Option.bind_some]
  exact hswitch

section Running

variable {s : Paging} {c table : Nat} (hcurrent : s.scheduler.current = some c)
  (htable : s.tableOf c = some table)

include htable

theorem overlay_take {frame cell : Nat} (hf : frame < memoryPages) (hcell : s.LiveCell cell)
    (other : Nat → Nat) :
    ((s.overlay s.LiveCell other).takeFrame table frame cell).bind
        (fun mid => some (mid.protect frame true)) =
      ((s.takeFrame table frame cell).bind fun mid =>
        some (mid.protect frame true)).map (overlay s.LiveCell other) := by
  rw [overlay_takeFrame hcell (liveTable_of_tableOf htable frame hf)]
  cases s.takeFrame table frame cell with
  | none => rfl
  | some mid => rfl

theorem mapPage_ignores {i : Nat}
    (hsafe : s.masterTable i = true → s.cells (table + i) ≠ i → s.LiveTables) :
    Ignores (mapPage · table i) s := by
  intro other
  dsimp only
  unfold mapPage
  rcases Nat.lt_or_ge i memoryPages with hi | hi
  · have hown := liveTable_of_tableOf htable i hi
    have hset : ∀ mid : Paging, (mid.overlay s.LiveCell other).setCell (table + i) i =
        (mid.setCell (table + i) i).overlay s.LiveCell other := fun mid =>
      overlay_setCell hown i
    have hmaster : (s.overlay s.LiveCell other).masterTable = s.masterTable := rfl
    rw [if_pos hi, if_pos hi, overlay_cells hown, hmaster]
    rcases Classical.em (s.masterTable i = true ∧ s.cells (table + i) = i) with hin | haway
    · rw [if_pos hin, if_pos hin]
      rfl
    · rw [if_neg haway, if_neg haway]
      dsimp only
      rcases Classical.em (s.masterTable i = true) with hused | hfree
      · have hevict : evict i (s.overlay s.LiveCell other) =
            (evict i s).map (overlay s.LiveCell other) :=
          overlay_evictFrom maxThreads (hsafe hused fun hcell => haway ⟨hused, hcell⟩)
        rw [if_pos hused, if_pos hused, hevict]
        cases evict i s with
        | none => rfl
        | some mid =>
            change some (((mid.overlay s.LiveCell other).setCell (table + i) i).mark i
              true |>.protect i true) = _
            rw [hset]
            rfl
      · rw [if_neg hfree, if_neg hfree]
        change some (((s.overlay s.LiveCell other).setCell (table + i) i).mark i
          true |>.protect i true) = _
        rw [hset]
        rfl
  · rw [if_neg (Nat.not_lt.mpr hi), if_neg (Nat.not_lt.mpr hi)]
    rfl

include hcurrent

theorem segHandler_ignores (htabled : s.Tabled) {f : Nat} (hf : f < memoryPages)
    (hsafe : s.masterTable f = true → s.LiveTables ∨ s.FoundLive f) :
    Ignores (segHandler · f) s := by
  intro other
  have hown := liveTable_of_tableOf htable f hf
  have hoverlay : (s.overlay s.LiveCell other).segHandler f =
      if s.masterTable f = false then
        some ((((s.overlay s.LiveCell other).protect f true).setCell (table + f) f).mark f true)
      else scanTables table f (s.overlay s.LiveCell other) 0 maxThreads :=
    segHandler_eq (s := s.overlay s.LiveCell other) hcurrent htable f
  dsimp only
  rw [hoverlay, segHandler_eq hcurrent htable]
  split
  · have hset : ((s.overlay s.LiveCell other).protect f true).setCell (table + f) f =
        ((s.protect f true).setCell (table + f) f).overlay s.LiveCell other :=
      overlay_setCell (s := s.protect f true) hown f
    rw [hset]
    rfl
  · next hused =>
      rcases hsafe (by simpa using hused) with hall | hfound
      · exact overlay_scanTables hown maxThreads hall
      · obtain ⟨i, owner, j, hslot, hscan, hlive, hbefore⟩ := hfound
        have hi : i < s.scheduler.threadIDS := by
          refine Nat.not_le.mp fun hle => ?_
          rw [htabled.beyond i hle] at hslot
          cases hslot
        have hcount := htabled.count
        have hslots : ∀ k, k < i → s.pageTables k ≠ none := fun k hk =>
          htabled.slots.below k (Nat.lt_trans hk hi)
        obtain ⟨-, hj, -⟩ := scanEntries_found memoryPages hscan
        have hzero := Nat.le_of_eq (Nat.zero_add memoryPages)
        have hcell := hlive i (Nat.le_refl i) owner hslot j (by omega)
        have hscan' : scanEntries f owner (s.overlay s.LiveCell other) 0 memoryPages =
            some (.found j) :=
          (overlay_scanEntries (hlive i (Nat.le_refl i) owner hslot) memoryPages hzero).trans
            hscan
        have hsame : scanTables table f (s.overlay s.LiveCell other) 0 maxThreads =
            ((s.overlay s.LiveCell other).takeFrame table f (owner + j)).bind fun mid =>
              some (mid.protect f true) := by
          refine scanTables_found (s := s.overlay s.LiveCell other) hslots hslot hscan' ?_
            maxThreads (Nat.zero_le i) (by omega)
          intro i' hi' found hfound
          have hentries := hlive i' (Nat.le_of_lt hi') found hfound
          obtain ⟨hended, hne⟩ := hbefore i' hi' found hfound
          refine ⟨(overlay_scanEntries hentries memoryPages hzero).trans hended, ?_⟩
          rw [overlay_cells (hentries lastPage lastPage_lt)]
          exact hne
        rw [hsame, scanTables_found hslots hslot hscan hbefore maxThreads (Nat.zero_le i)
          (by omega)]
        exact overlay_take htable hf hcell other

end Running

inductive Search
  | yield
  | fault (f : Nat)
  | mapPage (i : Nat)

def search (s : Paging) : Search → Option Paging
  | .yield => s.myPthreadYield
  | .fault f => s.segHandler f
  | .mapPage i => s.step (.mapPage i)

def Calls (s : Paging) : Search → Prop
  | .yield => AtYield s
  | .fault f => Reachable s ∧ s.scheduler.current ≠ none ∧ f < memoryPages ∧
      s.accessible f = false
  | .mapPage _ => Reachable s ∧ s.scheduler.current ≠ none

def Unsearched (s : Paging) : Search → Prop
  | .yield => s.YieldUnsearched
  | .fault f => s.masterTable f = true → s.LiveTables ∨ s.FoundLive f
  | .mapPage i => s.masterTable i = true →
      (∀ c, s.scheduler.current = some c → s.place (c, i) ≠ some i) → s.LiveTables

/-- The tables of joined threads neither decide the outcome of the call nor change
in it. -/
theorem joined_tables_ignored {s : Paging} {call : Search} (hcalls : s.Calls call)
    (hsafe : s.Unsearched call) : Ignores (search · call) s := by
  cases call with
  | yield =>
      obtain ⟨htabled, hpending⟩ := AtYield.tabled hcalls
      exact yield_ignores hpending htabled hsafe
  | fault f =>
      obtain ⟨hreachable, hrunning, hf, -⟩ := hcalls
      obtain ⟨htabled, hsteady⟩ := hreachable.tabled
      obtain ⟨c, hcurrent⟩ := Option.ne_none_iff_exists'.mp hrunning
      obtain ⟨table, htable, -⟩ := htabled.table (hsteady.current_alive hcurrent)
      exact segHandler_ignores hcurrent htable htabled hf hsafe
  | mapPage i =>
      obtain ⟨hreachable, hrunning⟩ := hcalls
      obtain ⟨htabled, hsteady⟩ := hreachable.tabled
      obtain ⟨c, hcurrent⟩ := Option.ne_none_iff_exists'.mp hrunning
      obtain ⟨table, htable, hslot⟩ := htabled.table (hsteady.current_alive hcurrent)
      have hevent : ∀ first : Paging, first.scheduler = s.scheduler →
          first.pageTables = s.pageTables →
            first.search (.mapPage i) = first.mapPage table i := by
        intro first hscheduler hpageTables
        change (first.scheduler.current).bind _ = _
        rw [hscheduler, hcurrent, Option.bind_some]
        change (first.pageTables c).bind _ = _
        rw [hpageTables, hslot, Option.bind_some]
      intro other
      have hmap := mapPage_ignores htable (i := i) (fun hused haway => hsafe hused ?_) other
      · dsimp only
        rw [hevent (s.overlay s.LiveCell other) rfl rfl, hevent s rfl rfl]
        exact hmap
      · intro d hd hplace
        obtain rfl := Option.some.inj (hcurrent.symm.trans hd)
        obtain ⟨found, hfound, -, hcell, -⟩ := place_eq_some.mp hplace
        obtain rfl := Option.some.inj (htable.symm.trans hfound)
        exact haway hcell

theorem liveTables_of_alive {s : Paging}
    (h : ∀ j, s.pageTables j ≠ none → s.scheduler.Alive j) : s.LiveTables :=
  fun _ _ hslot _ hk => liveCell_of_alive h hslot hk

theorem created_live : ∃ s, created = some s ∧ SafeRun s ∧
    s.scheduler.current = some 1 ∧ s.LiveTables := by
  obtain ⟨s, hs, hrun⟩ := mainAlone_create
  have hfacts : created.map (fun s => (s.scheduler.current, s.scheduler.threadIDS,
      (s.scheduler.threads 0).isSome, (s.scheduler.threads 1).isSome)) =
        some (some 1, 2, true, true) := by
    decide +kernel
  rw [created, hs] at hfacts
  obtain ⟨hcurrent, hids, hzero, hone⟩ : s.scheduler.current = some 1 ∧
      s.scheduler.threadIDS = 2 ∧ (s.scheduler.threads 0).isSome = true ∧
        (s.scheduler.threads 1).isSome = true := by
    simpa using Option.some.inj hfacts
  refine ⟨s, hs, hrun, hcurrent, liveTables_of_alive fun j hj => ?_⟩
  have hlt : j < 2 := by
    refine Nat.not_le.mp fun hle => hj (hrun.reachable.tabled.1.beyond j ?_)
    omega
  rcases Nat.le_one_iff_eq_zero_or_eq_one.mp (Nat.le_of_lt_succ hlt) with rfl | rfl
  · exact Option.isSome_iff_ne_none.mp hzero
  · exact Option.isSome_iff_ne_none.mp hone

theorem step_reachable {state : Option Paging} {event : Event} {c c' : Nat}
    (h : ∃ s, state = some s ∧ Reachable s ∧ s.scheduler.current = some c)
    (hadmitted : ∀ s, state = some s → Reachable s → s.Admitted event)
    (hreturns : (state.bind (·.step event)).map (·.scheduler.current) = some (some c')) :
    ∃ next, state.bind (·.step event) = some next ∧ Reachable next ∧
      next.scheduler.current = some c' := by
  obtain ⟨s, rfl, hreachable, hcurrent⟩ := h
  obtain ⟨next, hnext, hrunning⟩ := Option.map_eq_some_iff.mp hreturns
  exact ⟨next, hnext, .step event hreachable hcurrent (hadmitted s rfl hreachable) hnext,
    hrunning⟩

/-- Main creates a second thread, which yields to the first one. -/
def third : Option Paging :=
  (pair.bind (·.step (.create 0 4000 0 0))).bind (·.step .yield)

/-- The first thread exits, main joins it and yields to the second one. -/
def departed : Option Paging :=
  ((third.bind (·.step (.exit 0))).bind (·.step (.join 1))).bind (·.step .yield)

/-- The second thread has marked a block that ends in its fourth page. -/
def claimed : Option Paging :=
  departed.bind (·.splitBlock 4 13008 6278440)

theorem pair_admitted {s : Paging} (hs : pair = some s) (hreachable : Reachable s) :
    s.Admitted (.create 0 4000 0 0) := by
  have hfacts : pair.map (fun s => (s.scheduler.threadIDS, s.pageTables 0, s.pageTables 1)) =
      some (2, some 0, some 2000) := by
    decide +kernel
  rw [hs] at hfacts
  obtain ⟨hids, hmain, hone⟩ : s.scheduler.threadIDS = 2 ∧ s.pageTables 0 = some 0 ∧
      s.pageTables 1 = some 2000 := by
    simpa using Option.some.inj hfacts
  intro t table htable
  have hlt := hreachable.tabled.1.lt htable
  rw [hids] at hlt
  have hpages : memoryPages = 1536 := rfl
  have hslot := pageTables_of_tableOf htable
  rcases Nat.le_one_iff_eq_zero_or_eq_one.mp (Nat.le_of_lt_succ hlt) with rfl | rfl
  · obtain rfl := Option.some.inj (hmain.symm.trans hslot)
    omega
  · obtain rfl := Option.some.inj (hone.symm.trans hslot)
    omega

theorem third_reachable :
    ∃ s, third = some s ∧ Reachable s ∧ s.scheduler.current = some 1 := by
  have hpair : ∃ s, pair = some s ∧ Reachable s ∧ s.scheduler.current = some 0 := by
    obtain ⟨s, hs, hreachable⟩ := pair_reachable
    have hcurrent : pair.map (fun s => s.scheduler.current) = some (some 0) := by
      decide +kernel
    rw [hs] at hcurrent
    exact ⟨s, hs, hreachable, Option.some.inj hcurrent⟩
  have hcreated : ∃ s, pair.bind (·.step (.create 0 4000 0 0)) = some s ∧ Reachable s ∧
      s.scheduler.current = some 2 :=
    step_reachable hpair (fun _ => pair_admitted) (by decide +kernel)
  exact step_reachable hcreated (fun _ _ _ => trivial) (by decide +kernel)

theorem departed_reachable :
    ∃ s, departed = some s ∧ Reachable s ∧ s.scheduler.current = some 2 := by
  have hexited : ∃ s, third.bind (·.step (.exit 0)) = some s ∧ Reachable s ∧
      s.scheduler.current = some 0 :=
    step_reachable third_reachable (fun _ _ _ => trivial) (by decide +kernel)
  have hjoined : ∃ s, (third.bind (·.step (.exit 0))).bind (·.step (.join 1)) = some s ∧
      Reachable s ∧ s.scheduler.current = some 0 :=
    step_reachable hexited (fun _ _ _ => trivial) (by decide +kernel)
  exact step_reachable hjoined (fun _ _ _ => trivial) (by decide +kernel)

/-- A fault on a frame that the joined thread's table names as well. -/
theorem joined_tables_ignored_departed : ∃ s, departed = some s ∧
    s.scheduler.threads 1 = none ∧ s.pageTables 1 = some 2000 ∧ s.cells 2000 = 1 ∧
      s.masterTable 1 = true ∧ Ignores (search · (.fault 1)) s := by
  obtain ⟨s, hs, hreachable, hcurrent⟩ := departed_reachable
  have hfacts : departed.all (fun s => (s.scheduler.threads 0).isSome &&
      (s.scheduler.threads 1).isNone && !s.accessible 1 && s.masterTable 1 &&
        s.pageTables 0 == some 0 && s.pageTables 1 == some 2000 && s.cells 0 == 1 &&
          s.cells 2000 == 1) = true := by
    decide +kernel
  rw [hs] at hfacts
  obtain ⟨hzero, hone, haccess, hused, hmain, hjoined, hcell, hold⟩ :
      (s.scheduler.threads 0).isSome = true ∧ s.scheduler.threads 1 = none ∧
        s.accessible 1 = false ∧ s.masterTable 1 = true ∧ s.pageTables 0 = some 0 ∧
          s.pageTables 1 = some 2000 ∧ s.cells 0 = 1 ∧ s.cells 2000 = 1 := by
    simpa [and_assoc] using hfacts
  have halive : s.scheduler.Alive 0 := Option.isSome_iff_ne_none.mp hzero
  have hcalls : s.Calls (.fault 1) :=
    ⟨hreachable, by rw [hcurrent]; exact Option.some_ne_none 2, by decide, haccess⟩
  have hfound : s.FoundLive 1 := by
    refine ⟨0, 0, 0, hmain, ?_, ?_, fun _ hlt => absurd hlt (Nat.not_lt_zero _)⟩
    · have hmapped : s.cells (0 + 0) ≠ unmapped := by
        rw [hcell]
        decide
      rw [show memoryPages = 1535 + 1 from rfl, scanEntries, if_neg hmapped, if_pos hcell]
    · intro i hi other hslot
      obtain rfl := Nat.le_zero.mp hi
      exact liveTable_of_tableOf ((tableOf_eq halive).trans hslot)
  exact ⟨s, hs, hone, hjoined, hold, hused,
    joined_tables_ignored hcalls fun _ => Or.inr hfound⟩

/-- The second thread's loop over the pages of its block comes to that frame. -/
theorem joined_tables_searched :
    ¬ ∀ (s : Paging) (call : Search), s.Calls call → Ignores (search · call) s := by
  intro h
  obtain ⟨first, hfirst, hreachable, hrunning⟩ := departed_reachable
  have hthreads : claimed.map (fun s => (s.scheduler.current, s.scheduler.threadIDS,
      (s.scheduler.threads 1).isSome)) = some (some 2, 3, false) := by
    decide +kernel
  have htables : claimed.map (fun s => (s.pageTables 0, s.pageTables 2, s.cells 2000)) =
      some (some 0, some 4000, 1) := by
    decide +kernel
  have hafter : (claimed.bind (·.step (.mapPage 1))).map (·.cells 2000) = some 4 := by
    decide +kernel
  obtain ⟨s, hs, hsame⟩ := Option.map_eq_some_iff.mp hthreads
  rw [hs] at htables
  rw [hs, Option.bind_some] at hafter
  obtain ⟨hcurrent, hids, hone⟩ : s.scheduler.current = some 2 ∧
      s.scheduler.threadIDS = 3 ∧ s.scheduler.threads 1 = none := by
    simpa using hsame
  obtain ⟨hmain, htwo, hcell⟩ : s.pageTables 0 = some 0 ∧
      s.pageTables 2 = some 4000 ∧ s.cells 2000 = 1 := by
    simpa using Option.some.inj htables
  rw [claimed, hfirst, Option.bind_some] at hs
  have hreachable := (splitBlock_requests hs).reachable hrunning hreachable
  have hdead : ¬ s.LiveCell 2000 := by
    rintro ⟨t, table, q, htable, hq, heq⟩
    have hlt := hreachable.tabled.1.lt htable
    rw [hids] at hlt
    have hpages : memoryPages = 1536 := rfl
    have hslot := pageTables_of_tableOf htable
    obtain rfl | rfl | rfl : t = 0 ∨ t = 1 ∨ t = 2 := by omega
    · obtain rfl := Option.some.inj (hmain.symm.trans hslot)
      omega
    · exact absurd hone (alive_of_tableOf htable)
    · obtain rfl := Option.some.inj (htwo.symm.trans hslot)
      omega
  obtain ⟨next, hnext, hmoved⟩ := Option.map_eq_some_iff.mp hafter
  have hignores := h s (.mapPage 1)
    ⟨hreachable, by rw [hcurrent]; exact Option.some_ne_none 2⟩ s.cells
  have hself : s.overlay s.LiveCell s.cells = s := by
    simp only [overlay, ite_self]
  rw [hself] at hignores
  change s.step (.mapPage 1) = (s.step (.mapPage 1)).map _ at hignores
  rw [hnext, Option.map_some] at hignores
  have hkept : next.cells 2000 = s.cells 2000 := by
    rw [Option.some.inj hignores]
    exact if_neg hdead
  rw [hkept, hcell] at hmoved
  cases hmoved

end RutgersOS.Assignment2.Paging
