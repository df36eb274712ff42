import RutgersOS.Assignment2.JoinedTables

namespace RutgersOS.Assignment2.Paging

open RutgersOS.Memory RutgersOS.Pthread

/-- The page that is moved does not need the swap file after it was closed. -/
def Stored (s : Paging) : Prop :=
  ∀ frame, s.nextFreePage = some frame → frame < memoryPages ∨ s.fileOpen = true

theorem fault_handled {s : Paging} {c f : Nat} (hreachable : Reachable s) (howned : s.Owned)
    (hcurrent : s.scheduler.current = some c) (hfree : s.nextFreePage ≠ none)
    (hf : f < memoryPages) (habsent : s.place (c, f) = none)
    (hfound : s.masterTable f = true → s.Findable f ∧ s.Stored) :
    ∃ next, s.segHandler f = some next ∧ next.place (c, f) = some f ∧
      next.masterTable f = true ∧ next.accessible f = true ∧
      (∀ t q, s.place (t, q) = some f → ∃ frame, s.masterTable frame = false ∧
        next.place (t, q) = some frame ∧ next.content frame = s.content f) ∧
      ∀ t q, (t, q) ≠ (c, f) → s.place (t, q) ≠ some f →
        next.place (t, q) = s.place (t, q) := by
  obtain ⟨htabled, hsteady⟩ := hreachable.tabled
  obtain ⟨table, htable, -⟩ := htabled.table (hsteady.current_alive hcurrent)
  obtain ⟨next, hnext, hhandled⟩ := segHandler_handled hcurrent htable htabled howned hf
    habsent (fun hused => (hfound hused).1) hfree
  refine ⟨next, hnext, hhandled.placed, hhandled.marked, hhandled.access, ?_, ?_⟩
  · intro t q hplace
    obtain ⟨frame, hframe, hmoved, hcontent⟩ := hhandled.rehomed (t, q) hplace
    have hstored := (hfound (howned.framed.used_of_place hplace)).2 frame hframe
    exact ⟨frame, (nextFreePage_spec hframe).2.1, hmoved, hcontent hstored⟩
  · intro t q
    exact hhandled.kept (t, q)

theorem findable_first {s : Paging} {table f : Nat} (hslot : s.pageTables 0 = some table)
    (hcell : s.cells table = f) (hmapped : f ≠ unmapped) (hlive : s.LiveCell table) :
    s.Findable f := by
  refine ⟨0, table, 0, hslot, ?_, hlive, fun i hi => absurd hi (Nat.not_lt_zero i)⟩
  have hscan : scanEntries f table s 0 (lastPage + 1) = some (.found 0) := by
    rw [scanEntries, Nat.add_zero, if_neg (hcell ▸ hmapped), if_pos hcell]
  exact hscan

/-- The thread that main created touches the frame that main's first page is in. -/
theorem fault_handled_created : ∃ s next, created = some s ∧ s.place (0, 0) = some 3 ∧
    s.segHandler 3 = some next ∧ next.place (1, 3) = some 3 ∧
      next.masterTable 3 = true ∧ next.accessible 3 = true ∧
      (∀ t q, s.place (t, q) = some 3 → ∃ frame, s.masterTable frame = false ∧
        next.place (t, q) = some frame ∧ next.content frame = s.content 3) ∧
      ∀ t q, (t, q) ≠ (1, 3) → s.place (t, q) ≠ some 3 →
        next.place (t, q) = s.place (t, q) := by
  obtain ⟨s, hs, hrun, hcurrent, hlive⟩ := created_live
  have hfacts : created.map (fun s => (s.nextFreePage, s.fileOpen, s.pageTables 0,
      s.cells 0)) = some (some 1, true, some 0, 3) := by
    decide +kernel
  have hplaces : created.map (fun s => (s.place (1, 3), s.place (0, 0))) =
      some (none, some 3) := by
    decide +kernel
  rw [hs] at hfacts hplaces
  obtain ⟨hfree, hopen, hslot, hcell⟩ : s.nextFreePage = some 1 ∧ s.fileOpen = true ∧
      s.pageTables 0 = some 0 ∧ s.cells 0 = 3 := by
    simpa using Option.some.inj hfacts
  obtain ⟨habsent, hheld⟩ := Prod.mk.inj (Option.some.inj hplaces)
  have hfound : s.Findable 3 ∧ s.Stored :=
    ⟨findable_first hslot hcell (by decide) (hlive 0 0 hslot 0 (by decide)),
      fun _ _ => Or.inr hopen⟩
  obtain ⟨next, hnext⟩ := fault_handled hrun.reachable hrun.owned hcurrent
    (by rw [hfree]; nofun) (by decide) habsent fun _ => hfound
  exact ⟨s, next, hs, hheld, hnext⟩

theorem created_yield_safe {s : Paging} (hs : created = some s) (hrun : SafeRun s) :
    s.YieldSafe := by
  obtain ⟨htabled, hsteady⟩ := hrun.reachable.tabled
  have hswitch : created.bind (fun s => s.scheduler.myPthreadYield.map Prod.snd) =
      some (.swap 1 0) := by
    decide +kernel
  have hfacts : created.map (fun s => (s.scheduler.current, s.tableOf 0, s.cells 0)) =
      some (some 1, some 0, 3) := by
    decide +kernel
  have hplaces : created.map (fun s => (s.place (1, 0), s.place (1, 1),
      (landing s.masterTable 2).length)) = some (some 0, none, 2) := by
    decide +kernel
  have hcells : created.map (fun s => (List.range memoryPages).all fun q =>
      q == 0 || q == lastPage || s.cells (0 + q) == unmapped) = some true := by
    decide +kernel
  rw [hs] at hfacts hplaces hcells hswitch
  obtain ⟨hcurrent, htable, hfirst⟩ : s.scheduler.current = some 1 ∧
      s.tableOf 0 = some 0 ∧ s.cells 0 = 3 := by
    simpa using Option.some.inj hfacts
  obtain ⟨hzero, hone, henough⟩ : s.place (1, 0) = some 0 ∧ s.place (1, 1) = none ∧
      (landing s.masterTable 2).length = 2 := by
    simpa using Option.some.inj hplaces
  have hunmapped : ∀ q, q < memoryPages →
      (q = 0 ∨ q = lastPage) ∨ s.cells (0 + q) = unmapped := by
    simpa using Option.some.inj hcells
  have hends : s.EndsAt 1 1 := by
    refine .one ?_ hone
    rw [hzero]
    nofun
  have hgives : ∀ scheduler switch, s.scheduler.myPthreadYield = some (scheduler, switch) →
      switch = .swap 1 0 := by
    intro scheduler switch hyield
    rw [Option.bind_some, hyield] at hswitch
    exact Option.some.inj hswitch
  have hmain : ∀ q, s.place (0, q) ≠ none ↔ q = 0 ∨ q = lastPage := by
    intro q
    constructor
    · intro hmapped
      obtain ⟨frame, hframe⟩ := Option.ne_none_iff_exists'.mp hmapped
      obtain ⟨found, hfound, hq, hcell, hmapped'⟩ := place_eq_some.mp hframe
      obtain rfl := Option.some.inj (htable.symm.trans hfound)
      exact (hunmapped q hq).resolve_right (hcell ▸ hmapped')
    · rintro (rfl | rfl)
      · rw [Ne, place_eq_none htable (by decide), Nat.zero_add, hfirst]
        decide
      · exact htabled.placeLast (alive_of_tableOf htable)
  exact handover_safe hsteady.pending htabled hrun.owned hcurrent hgives hends Nat.zero_lt_one
    hmain henough

theorem pair_run : ∃ s, pair = some s ∧ SafeRun s := by
  obtain ⟨s, hs, hrun, hcurrent, -⟩ := created_live
  obtain ⟨next, hnext⟩ := Option.isSome_iff_exists.mp (by decide +kernel : pair.isSome = true)
  refine ⟨next, hnext, .step .yield hrun hcurrent trivial (created_yield_safe hs hrun) ?_⟩
  rw [← hnext, pair, hs, Option.bind_some]

/-- Main touches the frame that the last page of the other thread is in. -/
theorem fault_fails : ¬ ∀ s c f, Reachable s → s.Owned → s.scheduler.current = some c →
    s.nextFreePage ≠ none → f < memoryPages → s.place (c, f) = none →
      ∃ next, s.segHandler f = some next ∧ next.place (c, f) = some f ∧
        next.masterTable f = true ∧ next.accessible f = true ∧
        (∀ t q, s.place (t, q) = some f → ∃ frame, s.masterTable frame = false ∧
          next.place (t, q) = some frame ∧ next.content frame = s.content f) ∧
        ∀ t q, (t, q) ≠ (c, f) → s.place (t, q) ≠ some f →
          next.place (t, q) = s.place (t, q) := by
  intro h
  obtain ⟨s, hs, hrun⟩ := pair_run
  have hfacts : pair.map (fun s => (s.scheduler.current, s.nextFreePage, s.place (0, 2),
      (s.segHandler 2).isSome)) = some (some 0, some 3, none, false) := by
    decide +kernel
  rw [hs] at hfacts
  obtain ⟨hcurrent, hfree, habsent, hfails⟩ : s.scheduler.current = some 0 ∧
      s.nextFreePage = some 3 ∧ s.place (0, 2) = none ∧ s.segHandler 2 = none := by
    simpa using Option.some.inj hfacts
  obtain ⟨next, hnext, -⟩ := h s 0 2 hrun.reachable hrun.owned hcurrent
    (by rw [hfree]; nofun) (by decide) habsent
  rw [hfails] at hnext
  cases hnext

end RutgersOS.Assignment2.Paging
