import RutgersOS.Assignment2.Invisibility

namespace RutgersOS.Assignment2.Paging

open RutgersOS.Memory RutgersOS.Pthread

inductive YieldRun : Paging → Paging → Prop
  | done (s : Paging) : YieldRun s s
  | step {s mid next : Paging} : YieldRun s mid → mid.YieldSafe → mid.YieldFiled →
      mid.myPthreadYield = some next → YieldRun s next

theorem YieldRun.spec {s next : Paging} (h : YieldRun s next)
    (hpending : s.scheduler.Pending) (htabled : s.Tabled) (howned : s.Owned) :
    next.scheduler.Pending ∧ next.Tabled ∧ next.Owned ∧
      next.logicalMemory = s.logicalMemory := by
  induction h with
  | done => exact ⟨hpending, htabled, howned, rfl⟩
  | step _ hsafe hfiled hyield ih =>
      obtain ⟨hpending, htabled, howned, hlogical⟩ := ih
      obtain ⟨other, hother, hyielded⟩ := yield_spec hpending htabled howned hsafe
      obtain rfl := Option.some.inj (hother.symm.trans hyield)
      exact ⟨hyielded.steady.pending, hyielded.tabled, hyielded.owned,
        (hyielded.logicalMemory hfiled).trans hlogical⟩

/-- Whoever exits, the pages of all unjoined threads keep their content, and each
thread that runs again finds its own in place. -/
theorem exit_recoverable {s mid next : Paging} {current : Nat} {valuePtr : Int}
    (hreachable : Reachable s) (howned : s.Owned)
    (hcurrent : s.scheduler.current = some current) (hleave : s.leave valuePtr = some mid)
    (hrun : YieldRun mid next) : next.logicalMemory = s.logicalMemory ∧
      ∀ u, next.scheduler.current = some u → ∀ p frame,
        next.place (u, p) = some frame → frame = p := by
  obtain ⟨htabled, hsteady⟩ := hreachable.tabled
  obtain ⟨hsame, hpending, hnone, -⟩ := leave_spec hsteady hcurrent hleave
  obtain ⟨-, -, howned', hlogical⟩ :=
    hrun.spec hpending (hsame.tabled htabled) (hsame.owned howned hnone)
  exact ⟨hlogical.trans (logicalMemory_congr hsame.place hsame.content), howned'.inPlace⟩

theorem liveCell_of_alive {s : Paging} (h : ∀ j, s.pageTables j ≠ none → s.scheduler.Alive j)
    {j table k : Nat} (hslot : s.pageTables j = some table) (hk : k < memoryPages) :
    s.LiveCell (table + k) := by
  refine ⟨j, table, k, ?_, hk, rfl⟩
  rw [tableOf_eq (h j (by rw [hslot]; nofun)), hslot]

/-- A thread that has touched no page of its own resumes from the frames of another one. -/
theorem resume_safe {s : Paging} {u owner : Nat} (hfirst : s.place (u, 0) ≠ none)
    (honly : ∀ q, s.place (u, q) ≠ none → q = 0 ∨ q = lastPage)
    (hroom : s.scheduler.threadIDS < maxThreads) (hfree : s.nextFreePage ≠ none)
    (hlive : ∀ j table k, s.pageTables j = some table → k < memoryPages →
      s.LiveCell (table + k))
    (hlast : s.place (owner, lastPage) = some lastPage) : s.SwitchSafe (.resume u) := by
  have hsecond : s.place (u, 1) = none := by
    refine Classical.not_not.mp fun hmapped => ?_
    rcases honly 1 hmapped with hone | hone
    · cases hone
    · cases hone
  refine ⟨1,
    { ends := .one hfirst hsecond
      stays := ?_
      room := fun _ _ _ => hroom
      free := fun _ _ _ => hfree
      stale := fun _ _ _ j table k hslot hk _ => hlive j table k hslot hk
      last := fun _ => ⟨owner, hlast, fun j table _ hslot _ =>
        hlive j table lastPage hslot lastPage_lt⟩ }⟩
  intro q frame hout hkey
  rcases honly q (by rw [hkey]; exact Option.some_ne_none frame) with rfl | rfl
  · exact absurd (Or.inl Nat.zero_lt_one) hout
  · exact absurd (Or.inr rfl) hout

def created : Option Paging :=
  mainAlone.step (.create 0 2000 0 0)

theorem created_exit_safe {mid : Paging} (htabled : mid.Tabled)
    (hmid : created.bind (leave · 0) = some mid) : mid.YieldSafe := by
  intro scheduler switch hyield
  have hfacts : (created.bind (leave · 0)).map (fun s =>
      (s.scheduler.threadIDS, s.nextFreePage)) = some (2, some 1) := by
    decide +kernel
  have hscheduler : (created.bind (leave · 0)).bind (fun s => s.scheduler.myPthreadYield.map
      fun r => (r.2, r.1.threadIDS, (r.1.threads 0).isSome, (r.1.threads 1).isSome)) =
        some (.resume 0, 2, true, true) := by
    decide +kernel
  have hslots : (created.bind (leave · 0)).map (fun s => (s.pageTables 0, s.pageTables 1,
      s.cells 0, s.cells (2000 + lastPage))) = some (some 0, some 2000, 3, lastPage) := by
    decide +kernel
  have hcells : (created.bind (leave · 0)).map (fun s => (List.range memoryPages).all fun q =>
      q == 0 || q == lastPage || s.cells (0 + q) == unmapped) = some true := by
    decide +kernel
  rw [hmid] at hfacts hslots hcells
  rw [hmid, Option.bind_some, hyield] at hscheduler
  have hunmapped : ∀ q, q < memoryPages →
      (q = 0 ∨ q = lastPage) ∨ mid.cells (0 + q) = unmapped := by
    simpa using Option.some.inj hcells
  obtain ⟨hmain, hother, hfirst, hlast⟩ : mid.pageTables 0 = some 0 ∧
      mid.pageTables 1 = some 2000 ∧ mid.cells 0 = 3 ∧
      mid.cells (2000 + lastPage) = lastPage := by
    simpa using Option.some.inj hslots
  obtain ⟨hids, hfree⟩ : mid.scheduler.threadIDS = 2 ∧ mid.nextFreePage = some 1 := by
    simpa using Option.some.inj hfacts
  obtain ⟨rfl, hids', hzero, hone⟩ : switch = .resume 0 ∧ scheduler.threadIDS = 2 ∧
      (scheduler.threads 0).isSome = true ∧ (scheduler.threads 1).isSome = true := by
    simpa using Option.some.inj hscheduler
  have halive : ∀ j, mid.pageTables j ≠ none → scheduler.Alive j := by
    intro j hj
    have hlt : j < 2 := by
      refine Nat.not_le.mp fun hle => hj (htabled.beyond j ?_)
      omega
    rcases Nat.le_one_iff_eq_zero_or_eq_one.mp (Nat.le_of_lt_succ hlt) with rfl | rfl
    · exact Option.isSome_iff_ne_none.mp hzero
    · exact Option.isSome_iff_ne_none.mp hone
  obtain ⟨next, hnext⟩ : ∃ next : Paging, next = { mid with scheduler := scheduler } :=
    ⟨_, rfl⟩
  rw [← hnext]
  have hlive : ∀ {j table k}, next.pageTables j = some table → k < memoryPages →
      next.LiveCell (table + k) := by
    intro j table k hslot hk
    subst hnext
    exact liveCell_of_alive halive hslot hk
  have htable : ∀ j, mid.pageTables j ≠ none → next.tableOf j = mid.pageTables j := by
    intro j hj
    subst hnext
    exact tableOf_eq (halive j hj)
  have htable0 : next.tableOf 0 = some 0 := (htable 0 (by rw [hmain]; nofun)).trans hmain
  have htable1 : next.tableOf 1 = some 2000 := (htable 1 (by rw [hother]; nofun)).trans hother
  have hsame : next.cells = mid.cells := by rw [hnext]
  have hnone : ∀ q, q ≠ 0 → q ≠ lastPage → q < memoryPages → next.place (0, q) = none := by
    intro q hq hq' hlt
    rw [place_eq_none htable0 hlt, hsame]
    exact (hunmapped q hlt).resolve_left fun hor => hor.elim hq hq'
  have hmapped : next.place (0, 0) ≠ none := by
    rw [Ne, place_eq_none htable0 (by decide), hsame, Nat.add_zero, hfirst]
    decide
  have honly : ∀ q, next.place (0, q) ≠ none → q = 0 ∨ q = lastPage := by
    intro q hplaced
    by_contra hout
    obtain ⟨frame, hkey⟩ := Option.ne_none_iff_exists'.mp hplaced
    obtain ⟨table, -, hlt, -⟩ := place_eq_some.mp hkey
    exact hplaced (hnone q (fun hq => hout (Or.inl hq)) (fun hq => hout (Or.inr hq)) hlt)
  refine @resume_safe next 0 1 hmapped honly ?_ ?_ (fun j table k => hlive) ?_
  · rw [hnext]
    change scheduler.threadIDS < maxThreads
    rw [hids']
    decide
  · rw [hnext]
    change mid.nextFreePage ≠ none
    rw [hfree]
    exact Option.some_ne_none 1
  · exact place_eq_some.mpr ⟨2000, htable1, lastPage_lt, by rw [hsame, hlast], by decide⟩

theorem exit_recoverable_created : ∃ s mid next, created = some s ∧ s.leave 0 = some mid ∧
    mid.myPthreadYield = some next ∧ next.logicalMemory = s.logicalMemory ∧
      ∀ u, next.scheduler.current = some u → ∀ p frame,
        next.place (u, p) = some frame → frame = p := by
  obtain ⟨s, hs, hrun⟩ := mainAlone_create
  obtain ⟨mid, hmid⟩ := Option.isSome_iff_exists.mp
    (by decide +kernel : (created.bind (leave · 0)).isSome = true)
  obtain ⟨next, hnext⟩ := Option.isSome_iff_exists.mp
    (by decide +kernel : ((created.bind (leave · 0)).bind myPthreadYield).isSome = true)
  have hfacts : created.map (fun s => (s.scheduler.current, s.fileOpen)) =
      some (some 1, true) := by
    decide +kernel
  rw [hmid, Option.bind_some] at hnext
  have hleave : s.leave 0 = some mid := by
    rw [← hmid, created, hs, Option.bind_some]
  rw [created, hs] at hfacts
  obtain ⟨hcurrent, hopen⟩ : s.scheduler.current = some 1 ∧ s.fileOpen = true := by
    simpa using Option.some.inj hfacts
  obtain ⟨htabled, hsteady⟩ := hrun.reachable.tabled
  obtain ⟨hsame, -, -, hfile⟩ := leave_spec hsteady hcurrent hleave
  have hsafe := created_exit_safe (hsame.tabled htabled) hmid
  exact ⟨s, mid, next, hs, hleave, hnext,
    exit_recoverable hrun.reachable hrun.owned hcurrent hleave
      (.step (.done mid) hsafe (yieldFiled_of_open (hfile.trans hopen)) hnext)⟩

def fillPages (s : Paging) (low high : Nat) : Paging :=
  { s with
    cells := fun cell => if low ≤ cell ∧ cell < high then cell else s.cells cell
    masterTable := fun i => if low ≤ i ∧ i < high then true else s.masterTable i
    accessible := fun i => if low ≤ i ∧ i < high then true else s.accessible i }

theorem update_range {α : Type} (f g : Nat → α) {low i : Nat} (hlow : low ≤ i) :
    Function.update (fun k => if low ≤ k ∧ k < i then f k else g k) i (f i) =
      fun k => if low ≤ k ∧ k < i + 1 then f k else g k := by
  funext k
  rcases Classical.em (k = i) with rfl | hne
  · rw [Function.update_self, if_pos ⟨hlow, Nat.lt_succ_self k⟩]
  · rw [Function.update_of_ne hne]
    rcases Classical.em (low ≤ k ∧ k < i) with hin | hout
    · rw [if_pos hin, if_pos ⟨hin.1, Nat.lt_succ_of_lt hin.2⟩]
    · rw [if_neg hout, if_neg fun hin => hout ⟨hin.1, by omega⟩]

theorem fillPages_load {s : Paging} {low i : Nat} (hcurrent : s.scheduler.current = some 0)
    (hslot : s.pageTables 0 = some 0) (hlow : low ≤ i) (hi : i < memoryPages)
    (hfree : s.masterTable i = false) (haccess : s.accessible i = false) :
    (s.fillPages low i).step (.load (pageSize * i)) = some (s.fillPages low (i + 1)) := by
  have haddress : 0 ≤ pageSize * i ∧ pageSize * i < usrSize + pageSize := by
    simp only [pageSize, usrSize, memoryPages] at hi ⊢
    omega
  have hpage : (pageSize * i / pageSize).toNat = i := by
    simp only [pageSize]
    omega
  have hfree' : (s.fillPages low i).masterTable i = false :=
    (if_neg fun hin => Nat.lt_irrefl i hin.2).trans hfree
  have haccess' : ¬ (s.fillPages low i).accessible i = true := by
    rw [fillPages]
    dsimp only
    rw [if_neg fun hin => Nat.lt_irrefl i hin.2, haccess]
    exact Bool.false_ne_true
  have hcells := update_range (fun k => k) s.cells hlow
  have hmaster := update_range (fun _ => true) s.masterTable hlow
  have haccessible := update_range (fun _ => true) s.accessible hlow
  have hhandled : (s.fillPages low i).segHandler i = some (s.fillPages low (i + 1)) := by
    rw [segHandler]
    change (s.scheduler.current).bind _ = _
    rw [hcurrent, Option.bind_some]
    change (s.pageTables 0).bind _ = _
    rw [hslot, Option.bind_some, if_pos hfree']
    simp only [fillPages, protect, setCell, mark, Nat.zero_add, hcells, hmaster, haccessible]
  rw [step, touch, if_pos haddress, hpage, touchPage, if_neg haccess']
  exact hhandled

theorem fillPages_empty (s : Paging) (low : Nat) : s.fillPages low low = s := by
  have hnone : ∀ k, ¬ (low ≤ k ∧ k < low) := fun k hin => by omega
  simp only [fillPages, hnone, if_false]

theorem fillPages_reachable {s : Paging} {low high : Nat} (hreachable : Reachable s)
    (hcurrent : s.scheduler.current = some 0) (hslot : s.pageTables 0 = some 0)
    (hfree : ∀ i, low ≤ i → i < high → s.masterTable i = false ∧ s.accessible i = false)
    (hhigh : high ≤ memoryPages) (n : Nat) :
    low + n ≤ high → Reachable (s.fillPages low (low + n)) := by
  induction n with
  | zero =>
      intro _
      rw [Nat.add_zero, fillPages_empty]
      exact hreachable
  | succ n ih =>
      intro hle
      obtain ⟨hmaster, haccess⟩ := hfree (low + n) (by omega) (by omega)
      exact .step (.load _) (ih (by omega)) hcurrent trivial
        (fillPages_load hcurrent hslot (by omega) (by omega) hmaster haccess)

def pair : Option Paging :=
  created.bind fun s => s.step .yield

def crowded : Option Paging :=
  pair.map fun s => s.fillPages 5 1535

def evicted : Option Paging :=
  crowded.bind fun s => (s.myallocate 16000 10).map Prod.snd

theorem pair_reachable : ∃ s, pair = some s ∧ Reachable s := by
  obtain ⟨s, hs, hrun⟩ := mainAlone_create
  obtain ⟨next, hnext⟩ := Option.isSome_iff_exists.mp (by decide +kernel : pair.isSome = true)
  have hcurrent : created.map (fun s => s.scheduler.current) = some (some 1) := by
    decide +kernel
  rw [created, hs] at hcurrent
  refine ⟨next, hnext, .step .yield hrun.reachable (Option.some.inj hcurrent) trivial ?_⟩
  rw [← hnext, pair, created, hs, Option.bind_some]

/-- The header of the thread that stays is lost. -/
theorem evicted_facts : evicted.bind (fun s => (s.myPthreadExit 0).map fun next =>
    (s.scheduler.current, s.scheduler.ready, (s.logicalMemory (1, 0)).map (· 0),
      (next.logicalMemory (1, 0)).map (· 0))) =
        some (some 0, [0, 1], some 0xF0, some 0) := by
  decide +kernel

theorem evicted_reachable {s : Paging} (hevicted : evicted = some s) : Reachable s := by
  obtain ⟨first, hfirst, hreachable⟩ := pair_reachable
  have hfacts : pair.map (fun s => (s.scheduler.current, s.pageTables 0)) =
      some (some 0, some 0) := by
    decide +kernel
  have hfree : pair.map (fun s => (List.range 1530).all fun i =>
      !s.masterTable (5 + i) && !s.accessible (5 + i)) = some true := by
    decide +kernel
  rw [hfirst] at hfacts hfree
  obtain ⟨hcurrent, hslot⟩ : first.scheduler.current = some 0 ∧
      first.pageTables 0 = some 0 := by
    simpa using Option.some.inj hfacts
  have hfree' : ∀ i, i < 1530 →
      first.masterTable (5 + i) = false ∧ first.accessible (5 + i) = false := by
    simpa using Option.some.inj hfree
  have hfilled : Reachable (first.fillPages 5 (5 + 1530)) := by
    refine fillPages_reachable hreachable hcurrent hslot ?_ (by decide) 1530
      (Nat.le_refl 1535)
    intro i hlow hhigh
    have hi := hfree' (i - 5) (by omega)
    rwa [Nat.add_sub_cancel' hlow] at hi
  rw [evicted, crowded, hfirst, Option.map_some, Option.bind_some] at hevicted
  obtain ⟨⟨p, after⟩, hallocate, rfl⟩ := Option.map_eq_some_iff.mp hevicted
  exact (myallocate_requests hallocate).reachable hcurrent hfilled

theorem exit_loses : ¬ ∀ s current valuePtr next, Reachable s →
    s.scheduler.current = some current → (∃ t, t ≠ current ∧ t ∈ s.scheduler.ready) →
      s.myPthreadExit valuePtr = some next →
        ∀ t p, t ≠ current → next.logicalMemory (t, p) = s.logicalMemory (t, p) := by
  intro h
  obtain ⟨s, hs, hexit⟩ := Option.bind_eq_some_iff.mp evicted_facts
  obtain ⟨next, hnext, hfacts⟩ := Option.map_eq_some_iff.mp hexit
  obtain ⟨hcurrent, hready, hheader, hlost⟩ : s.scheduler.current = some 0 ∧
      s.scheduler.ready = [0, 1] ∧ (s.logicalMemory (1, 0)).map (· 0) = some 0xF0 ∧
        (next.logicalMemory (1, 0)).map (· 0) = some 0 := by
    simpa only [Prod.mk.injEq] using hfacts
  have hlogical := h s 0 0 next (evicted_reachable hs) hcurrent
    ⟨1, by decide, by rw [hready]; decide⟩ hnext 1 0 (by decide)
  rw [hlogical, hheader] at hlost
  revert hlost
  decide

end RutgersOS.Assignment2.Paging
