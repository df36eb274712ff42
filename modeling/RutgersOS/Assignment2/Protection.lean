import RutgersOS.Assignment2.Exits

namespace RutgersOS.Assignment2

open RutgersOS.Memory RutgersOS.Pthread

theorem Scheduler.Fresh.ids {s : Scheduler} (h : s.Fresh) : s.threadIDS = 1 := by
  obtain ⟨garbage, rfl | rfl⟩ := h
  · rfl
  · rfl

theorem Scheduler.Fresh.current_main {s : Scheduler} (h : s.Fresh) {c : Nat}
    (hc : s.current = some c) : c = 0 ∧ ∃ garbage, s = initializeScheduler garbage := by
  obtain ⟨garbage, rfl | rfl⟩ := h
  · exact ⟨(Option.some.inj hc).symm, garbage, rfl⟩
  · cases hc

namespace Paging

/-! The protection of the frames.  A frame of the user region should be accessible
just where the running thread has its page. -/

def GuardedBy (s : Paging) (c : Nat) : Prop :=
  ∀ f, f < memoryPages → (s.accessible f = true ↔ s.place (c, f) = some f)

def Guarded (s : Paging) : Prop :=
  ∀ c, s.scheduler.current = some c → ∀ f, f < memoryPages →
    (s.accessible f = true ↔ s.place (c, f) = some f) ∧
      ((s.masterTable f = false ∨ ∃ t q, t ≠ c ∧ s.place (t, q) = some f) →
        s.accessible f = false)

/-- A frame that is not the page of its own number is free or somebody else's. -/
theorem GuardedBy.guarded {s : Paging} {c : Nat} (h : s.GuardedBy c) (howned : s.Owned)
    (hcurrent : s.scheduler.current = some c) : s.Guarded := by
  intro d hd f hf
  obtain rfl := Option.some.inj (hcurrent.symm.trans hd)
  refine ⟨h f hf, fun hother => ?_⟩
  refine Bool.eq_false_iff.mpr fun haccess => ?_
  have hplace := (h f hf).mp haccess
  rcases hother with hfree | ⟨t, q, hne, hkey⟩
  · rw [howned.framed.used_of_place hplace] at hfree
    cases hfree
  · exact hne (Prod.mk.inj (howned.framed.separate _ _ f hkey hplace)).1

theorem GuardedBy.open {s next : Paging} {c f : Nat} (h : s.GuardedBy c)
    (haccess : next.accessible = Function.update s.accessible f true)
    (hplaced : next.place (c, f) = some f)
    (hkept : ∀ q, q ≠ f → next.place (c, q) = s.place (c, q)) : next.GuardedBy c := by
  intro q hq
  rw [haccess]
  rcases Classical.em (q = f) with rfl | hne
  · exact iff_of_true (Function.update_self _ _ _) hplaced
  · rw [Function.update_of_ne hne, hkept q hne]
    exact h q hq

inductive MainRun : Paging → Prop
  | start (memory swapFile : Bytes) (cells : Nat → Nat) (table : Nat) (stale : Int) :
      MainRun (initializeMemory memory swapFile cells table stale)
  | step {s next : Paging} {current : Nat} (event : Event) : MainRun s →
      s.scheduler.current = some current → s.Admitted event →
        (∀ stale table beside beside', event ≠ .create stale table beside beside') →
          s.step event = some next → MainRun next

structure Alone (s : Paging) : Prop where
  fresh : s.scheduler.Fresh
  first : s.place (0, 0) ≠ none
  guarded : s.GuardedBy 0
  behind : s.accessible memoryPages = true

theorem yield_alone {s : Paging} (h : s.scheduler.Fresh) : s.myPthreadYield = some s := by
  rw [myPthreadYield, h.yields]
  rfl

theorem yieldSafe_alone {s : Paging} (h : s.scheduler.Fresh) : s.YieldSafe := by
  intro scheduler switch hyield
  rw [h.yields] at hyield
  obtain ⟨-, rfl⟩ := Prod.mk.inj (Option.some.inj hyield)
  trivial

theorem update_open {access : Nat → Bool} {f page : Nat} (h : access f = true) :
    Function.update access page true f = true := by
  rcases Classical.em (f = page) with rfl | hne
  · exact Function.update_self _ _ _
  · rwa [Function.update_of_ne hne]

theorem Alone.denied_lt {s : Paging} (h : s.Alone) {address : Int} (hlow : 0 ≤ address)
    (hhigh : address < usrSize + pageSize)
    (hdenied : ¬ s.accessible (address / pageSize).toNat = true) :
    (address / pageSize).toNat < memoryPages := by
  refine Nat.lt_of_le_of_ne (page_of_touch hlow hhigh) fun heq => hdenied ?_
  rw [heq]
  exact h.behind

section Main

variable {s : Paging} (htabled : s.Tabled) (howned : s.Owned) (halone : s.Alone)
  (hcurrent : s.scheduler.current = some 0)

include htabled howned halone hcurrent

theorem alone_used {f : Nat} (hused : s.masterTable f = true) : s.place (0, f) = some f := by
  have hheld := ((howned.framed.marks f).mp hused).resolve_right id
  obtain ⟨⟨t, q⟩, hplace⟩ := exists_of_not_vacant hheld
  obtain ⟨table, htable, -⟩ := place_eq_some.mp hplace
  have hlt := htabled.lt htable
  rw [halone.fresh.ids] at hlt
  obtain rfl := Nat.lt_one_iff.mp hlt
  obtain rfl := howned.inPlace 0 hcurrent q f hplace
  exact hplace

theorem alone_denied {f : Nat} (hf : f < memoryPages) (hdenied : ¬ s.accessible f = true) :
    s.masterTable f = false ∧ s.place (0, f) = none := by
  have hfree : s.masterTable f = false := Bool.eq_false_iff.mpr fun hused =>
    hdenied ((halone.guarded f hf).mpr
      (alone_used htabled howned halone hcurrent hused))
  refine ⟨hfree, ?_⟩
  cases hplace : s.place (0, f) with
  | none => rfl
  | some frame =>
      obtain rfl := howned.inPlace 0 hcurrent f frame hplace
      exact absurd hplace ((howned.framed.vacant hfree).1 _)

theorem accessSafe_alone (address : Int) : s.AccessSafe address := by
  intro hlow hhigh
  rcases Classical.em (s.accessible (address / pageSize).toNat = true) with hopen | hdenied
  · exact Or.inl hopen
  · have hf := halone.denied_lt hlow hhigh hdenied
    obtain ⟨hfree, habsent⟩ := alone_denied htabled howned halone hcurrent hf hdenied
    refine Or.inr ⟨hf, fun c hc => ?_, fun hused => ?_⟩
    · rwa [← Option.some.inj (hcurrent.symm.trans hc)]
    · rw [hfree] at hused
      cases hused

theorem mapSafe_alone (i : Nat) : s.MapSafe i := by
  intro hused habsent
  have hplace := alone_used htabled howned halone hcurrent hused
  rw [habsent 0 hcurrent] at hplace
  cases hplace

theorem touch_alone {next : Paging} {address : Int} (h : s.touch address = some next) :
    next.Alone := by
  obtain ⟨hlow, hhigh, ⟨-, rfl⟩ | ⟨hclosed, hfault⟩⟩ := touch_cases h
  · exact halone
  · have hdenied : ¬ s.accessible (address / pageSize).toNat = true := by
      rw [hclosed]
      exact Bool.false_ne_true
    have hf := halone.denied_lt hlow hhigh hdenied
    obtain ⟨hfree, -⟩ := alone_denied htabled howned halone hcurrent hf hdenied
    have hmain : s.scheduler.Alive 0 := by
      obtain ⟨-, garbage, hscheduler⟩ := halone.fresh.current_main hcurrent
      rw [hscheduler]
      nofun
    obtain ⟨table, htable, -⟩ := htabled.table hmain
    obtain ⟨other, hother, hhandled⟩ :=
      segHandler_free hcurrent htable htabled howned hf hfree
    obtain rfl := Option.some.inj (hother.symm.trans hfault)
    have haccess : other.accessible =
        Function.update s.accessible (address / pageSize).toNat true := by
      rw [segHandler_eq hcurrent htable, if_pos hfree] at hfault
      rw [← Option.some.inj hfault]
      rfl
    refine ⟨(touch_rewrites h).scheduler ▸ halone.fresh,
      (touch_rewrites h).mapped halone.first, ?_, ?_⟩
    · refine halone.guarded.open haccess hhandled.placed fun q hne => ?_
      refine hhandled.kept (0, q) (fun heq => hne (Prod.mk.inj heq).2) fun hheld => ?_
      exact hne (howned.inPlace 0 hcurrent q _ hheld).symm
    · rw [haccess]
      exact update_open halone.behind

theorem mapPage_alone {next : Paging} {table i : Nat} (htable : s.tableOf 0 = some table)
    (h : s.mapPage table i = some next) : next.Alone := by
  obtain ⟨hi, ⟨-, -, rfl⟩ | ⟨mid, hmid, rfl⟩⟩ := mapPage_cases h
  · exact halone
  · obtain ⟨habsent, hcleared⟩ := mapPage_clears htabled howned hcurrent htable hi
      (mapSafe_alone htabled howned halone hcurrent i) hmid
    obtain ⟨-, rfl⟩ := hmid.resolve_left fun hused => by
      rw [alone_used htabled howned halone hcurrent hused.1] at habsent
      cases habsent
    obtain ⟨hmapped, -⟩ := hcleared.mapped htabled howned hcurrent htable hi habsent
    refine ⟨(mapPage_rewrites h).scheduler ▸ halone.fresh,
      (mapPage_rewrites h).mapped halone.first, ?_, update_open halone.behind⟩
    exact halone.guarded.open rfl hmapped.placed fun q hne =>
      hmapped.kept (0, q) fun heq => hne (Prod.mk.inj heq).2

end Main

theorem Alone.congr {s next : Paging} (h : s.Alone)
    (hfresh : next.scheduler.Fresh) (hplace : next.place = s.place)
    (haccess : next.accessible = s.accessible) : next.Alone := by
  refine ⟨hfresh, hplace ▸ h.first, fun f hf => ?_, haccess ▸ h.behind⟩
  rw [hplace, haccess]
  exact h.guarded f hf

theorem leave_alone {s mid : Paging} {valuePtr : Int} (hsteady : s.scheduler.Steady)
    (halone : s.Alone) (hcurrent : s.scheduler.current = some 0)
    (h : s.leave valuePtr = some mid) : mid.Alone := by
  obtain ⟨hsame, -⟩ := leave_spec hsteady hcurrent h
  refine halone.congr ?_ hsame.place hsame.accessible
  obtain ⟨other, -, hrest⟩ := Option.bind_eq_some_iff.mp h
  obtain ⟨scheduler, hremove, heq⟩ := Option.bind_eq_some_iff.mp hrest
  obtain rfl := Option.some.inj heq
  obtain ⟨-, garbage, hscheduler⟩ := halone.fresh.current_main hcurrent
  rw [hscheduler] at hremove
  exact ⟨garbage, Or.inr (Option.some.inj hremove).symm⟩

theorem threads_alone {s : Paging} (h : s.scheduler.Fresh) {t : Nat} {struct : Thread}
    (hstruct : s.scheduler.threads t = some struct) : struct.state = .active := by
  obtain ⟨garbage, hthreads⟩ := h.threads
  rw [hthreads] at hstruct
  rcases Classical.em (t = 0) with rfl | hne
  · rw [Function.update_self] at hstruct
    rw [← Option.some.inj hstruct]
  · rw [Function.update_of_ne hne] at hstruct
    cases hstruct

theorem safe_alone {s : Paging} {event : Event} (htabled : s.Tabled)
    (hsteady : s.scheduler.Steady) (howned : s.Owned) (halone : s.Alone)
    (hcurrent : s.scheduler.current = some 0)
    (hevent : ∀ stale table beside beside', event ≠ .create stale table beside beside') :
    s.Safe event := by
  have haccess := accessSafe_alone htabled howned halone hcurrent
  cases event with
  | create stale table beside beside' => exact absurd rfl (hevent stale table beside beside')
  | yield => exact yieldSafe_alone halone.fresh
  | exit valuePtr =>
      intro mid hmid
      exact yieldSafe_alone (leave_alone hsteady halone hcurrent hmid).fresh
  | join thread =>
      change s.JoinSafe thread
      rw [JoinSafe, if_neg fun hcompleted => ?_]
      · exact yieldSafe_alone halone.fresh
      · obtain ⟨struct, hstruct, hstate⟩ := Option.map_eq_some_iff.mp hcompleted
        rw [threads_alone halone.fresh hstruct] at hstate
        cases hstate
  | load address => exact haccess address
  | store address byte => exact haccess address
  | setValue p size allocation =>
      refine ⟨haccess p, fun mid hmid => ?_⟩
      have hrewrites := touch_rewrites hmid
      exact accessSafe_alone (htabled.rewrites hrewrites)
        (touch_owned hcurrent hsteady htabled howned (haccess p) hmid)
        (touch_alone htabled howned halone hcurrent hmid)
        (hrewrites.scheduler ▸ hcurrent) (p + 3)
  | mapPage i => exact mapSafe_alone htabled howned halone hcurrent i
  | reuse cell value => trivial

theorem step_alone {s next : Paging} {event : Event} (htabled : s.Tabled)
    (hsteady : s.scheduler.Steady) (howned : s.Owned) (halone : s.Alone)
    (hcurrent : s.scheduler.current = some 0) (hadmitted : s.Admitted event)
    (hevent : ∀ stale table beside beside', event ≠ .create stale table beside beside')
    (h : s.step event = some next) : next.Alone := by
  cases event with
  | create stale table beside beside' => exact absurd rfl (hevent stale table beside beside')
  | yield =>
      obtain rfl := Option.some.inj ((yield_alone halone.fresh).symm.trans h)
      exact halone
  | exit valuePtr =>
      obtain ⟨mid, hmid, hyield⟩ := Option.bind_eq_some_iff.mp h
      have hleft := leave_alone hsteady halone hcurrent hmid
      obtain rfl := Option.some.inj ((yield_alone hleft.fresh).symm.trans hyield)
      exact hleft
  | join thread =>
      rcases join_cases h with hyield | ⟨-, struct, hstruct, hcompleted⟩
      · obtain rfl := Option.some.inj ((yield_alone halone.fresh).symm.trans hyield)
        exact halone
      · rw [threads_alone halone.fresh hstruct] at hcompleted
        cases hcompleted
  | load address => exact touch_alone htabled howned halone hcurrent h
  | store address byte =>
      obtain ⟨mid, hmid, heq⟩ := Option.bind_eq_some_iff.mp h
      obtain rfl := Option.some.inj heq
      have hmid := touch_alone htabled howned halone hcurrent hmid
      exact hmid.congr hmid.fresh rfl rfl
  | setValue p size allocation =>
      obtain ⟨last, hlast, heq⟩ := Option.bind_eq_some_iff.mp h
      obtain rfl := Option.some.inj heq
      obtain ⟨first, hfirst, hsecond⟩ := Option.bind_eq_some_iff.mp hlast
      have hrewrites := touch_rewrites hfirst
      have hsafe := accessSafe_alone htabled howned halone hcurrent p
      have hlast := touch_alone (htabled.rewrites hrewrites)
        (touch_owned hcurrent hsteady htabled howned hsafe hfirst)
        (touch_alone htabled howned halone hcurrent hfirst)
        (hrewrites.scheduler ▸ hcurrent) hsecond
      exact hlast.congr hlast.fresh rfl rfl
  | mapPage i =>
      obtain ⟨c, table, hc, htable, hmap⟩ := mapEvent_cases h
      obtain rfl := Option.some.inj (hcurrent.symm.trans hc)
      exact mapPage_alone htabled howned halone hcurrent
        ((tableOf_eq (hsteady.current_alive hc)).trans htable) hmap
  | reuse cell value =>
      obtain rfl := Option.some.inj h
      exact halone.congr halone.fresh (place_reuse value hadmitted) rfl

theorem initializeMemory_alone (memory swapFile : Bytes) (cells : Nat → Nat) (table : Nat)
    (stale : Int) : (initializeMemory memory swapFile cells table stale).Alone := by
  refine ⟨⟨stale, Or.inl rfl⟩, ?_, fun f hf => ?_, rfl⟩
  · rw [initializeMemory_place, if_pos ⟨rfl, Or.inl rfl⟩]
    nofun
  have haccess : (initializeMemory memory swapFile cells table stale).accessible f = true ↔
      f = 0 ∨ f = lastPage := by
    refine decide_eq_true_iff.trans ⟨fun h => ?_, fun h => ?_⟩
    · rcases h with hfirst | hlast | hbehind
      · exact Or.inl hfirst
      · exact Or.inr hlast
      · exact absurd hbehind (Nat.ne_of_lt hf)
    · rcases h with hfirst | hlast
      · exact Or.inl hfirst
      · exact Or.inr (Or.inl hlast)
  rw [haccess, initializeMemory_place]
  rcases Classical.em (f = 0 ∨ f = lastPage) with hin | hout
  · rw [if_pos ⟨rfl, hin⟩]
    exact iff_of_true hin rfl
  · rw [if_neg fun h => hout h.2]
    exact iff_of_false hout nofun

theorem MainRun.alone {s : Paging} (h : MainRun s) : SafeRun s ∧ s.Alone := by
  induction h with
  | start memory swapFile cells table stale =>
      exact ⟨.start memory swapFile cells table stale,
        initializeMemory_alone memory swapFile cells table stale⟩
  | step event _ hcurrent hadmitted hevent hnext ih =>
      obtain ⟨hrun, halone⟩ := ih
      obtain ⟨htabled, hsteady⟩ := hrun.reachable.tabled
      obtain ⟨rfl, -⟩ := halone.fresh.current_main hcurrent
      exact ⟨.step event hrun hcurrent hadmitted
          (safe_alone htabled hsteady hrun.owned halone hcurrent hevent) hnext,
        step_alone htabled hsteady hrun.owned halone hcurrent hadmitted hevent hnext⟩

theorem MainRun.guarded {s : Paging} (h : MainRun s) : s.Guarded := by
  obtain ⟨hrun, halone⟩ := h.alone
  intro c hc
  obtain ⟨rfl, -⟩ := halone.fresh.current_main hc
  exact halone.guarded.guarded hrun.owned hc 0 hc

theorem readSlot_accessible (s : Paging) (slot des : Nat) :
    (s.readSlot slot des).accessible = s.accessible := by
  unfold readSlot
  split
  · rfl
  · rfl

theorem writeSlot_accessible (s : Paging) (slot page : Nat) :
    (s.writeSlot slot page).accessible = s.accessible := by
  unfold writeSlot
  split
  · rfl
  · rfl

/-- `swap_out` closes the frame that it fills, and nothing else. -/
theorem swapOut_open {s next : Paging} {page frame f : Nat}
    (h : s.swapOut page = some (frame, next)) (hf : f ≠ frame)
    (hopen : s.accessible f = true) : next.accessible f = true := by
  obtain ⟨freePage, -, heq⟩ := Option.bind_eq_some_iff.mp h
  obtain ⟨rfl, rfl⟩ := Prod.mk.inj (Option.some.inj heq)
  have hpage : (s.protect page true).accessible f = true := update_open hopen
  split
  · change Function.update (Function.update (s.protect page true).accessible _ true) _ false f
      = true
    rw [Function.update_of_ne hf, Function.update_of_ne hf]
    exact hpage
  · change ((s.protect page true).writeSlot _ page).accessible f = true
    rw [writeSlot_accessible]
    exact hpage

theorem swapIn_open (s : Paging) (newPage des : Nat) {f : Nat}
    (h : s.accessible f = true ∨ f = newPage ∧ newPage < memoryPages) :
    (s.swapIn newPage des).accessible f = true := by
  unfold swapIn
  dsimp only
  apply update_open
  split
  · change Function.update (Function.update s.accessible des true) newPage true f = true
    rcases h with hopen | ⟨rfl, -⟩
    · exact update_open (update_open hopen)
    · exact Function.update_self _ _ _
  · next hslot =>
      have hopen := h.resolve_right fun hin => hslot hin.2
      split
      · rw [readSlot_accessible]
        exact update_open hopen
      · exact update_open hopen

theorem swapOutPages_open {table f : Nat} (n : Nat) : ∀ {s next : Paging} {i storedi : Nat},
    s.masterTable f = true → s.accessible f = true →
      swapOutPages table s i n = some (storedi, next) →
        next.masterTable f = true ∧ next.accessible f = true := by
  induction n with
  | zero => exact fun _ _ => nofun
  | succ n ih =>
      intro s next i storedi hused hopen h
      rw [swapOutPages] at h
      split at h
      · obtain ⟨-, rfl⟩ := Prod.mk.inj (Option.some.inj h)
        exact ⟨hused, hopen⟩
      · obtain ⟨mid, hmid, hrest⟩ := Option.bind_eq_some_iff.mp h
        obtain ⟨⟨frame, after⟩, hout, heq⟩ := Option.bind_eq_some_iff.mp hmid
        obtain rfl := Option.some.inj heq
        obtain ⟨hfree, -, hmaster⟩ := swapOut_tables hout
        have hne : f ≠ frame := by
          rintro rfl
          rw [(nextFreePage_spec hfree).2.1] at hused
          cases hused
        have hopen' := swapOut_open hout hne hopen
        have hused' : Function.update after.masterTable frame true f = true := by
          rw [hmaster]
          exact update_open hused
        exact ih (s := (after.setCell (table + i) frame).mark frame true) hused' hopen' hrest

theorem switchOut_open {s next : Paging} {table f : Nat} (hused : s.masterTable f = true)
    (hopen : s.accessible f = true) (h : s.switchOut table = some next) :
    next.accessible f = true := by
  obtain ⟨⟨storedi, mid⟩, hpages, hrest⟩ := Option.bind_eq_some_iff.mp h
  obtain ⟨⟨frame, after⟩, hout, heq⟩ := Option.bind_eq_some_iff.mp hrest
  obtain rfl := Option.some.inj heq
  obtain ⟨hused', hopen'⟩ := swapOutPages_open memoryPages hused hopen hpages
  have hne : f ≠ frame := by
    rintro rfl
    rw [(nextFreePage_spec (swapOut_tables hout).1).2.1] at hused'
    cases hused'
  have hopen'' := swapOut_open hout hne hopen'
  exact hopen''

theorem bringIn_open {s next : Paging} {table i f : Nat}
    (h : s.bringIn some table i = some next)
    (hopen : s.accessible f = true ∨
      f = s.cells (table + i) ∧ f ≠ i ∧ f < memoryPages) :
    next.accessible f = true ∧
      ∀ cell, cell ≠ table + i → next.cells cell = s.cells cell := by
  unfold bringIn at h
  dsimp only at h
  split at h
  · obtain rfl := Option.some.inj h
    refine ⟨swapIn_open s _ i ?_, fun cell hcell => ?_⟩
    · rcases hopen with hopen | ⟨rfl, -, hf⟩
      · exact Or.inl hopen
      · exact Or.inr ⟨rfl, hf⟩
    · change Function.update (s.swapIn _ i).cells (table + i) i cell = _
      rw [Function.update_of_ne hcell, (swapIn_tables s _ i).1.cells]
  · next hplaced =>
      obtain rfl := Option.some.inj h
      refine ⟨?_, fun cell hcell => Function.update_of_ne hcell _ _⟩
      refine hopen.resolve_right fun hin => hin.2.1 (hin.1.trans ?_)
      exact Classical.not_not.mp hplaced

theorem switchIn_open {s next : Paging} {table f : Nat}
    (hfirst : s.cells table ≠ unmapped) (hended : s.cells (table + 1) = unmapped)
    (h : s.switchIn table = some next)
    (hopen : s.accessible f = true ∨ f = s.cells table ∧ f ≠ 0 ∧ f < memoryPages) :
    next.accessible f = true ∧
      ∀ q, 0 < q → q < lastPage → next.cells (table + q) = s.cells (table + q) := by
  obtain ⟨mid, hpages, hlast⟩ := Option.bind_eq_some_iff.mp h
  have hpages' : bringInPages (fun _ => some) table s 0 (lastPage + 1) = some mid := hpages
  rw [bringInPages, Nat.add_zero, if_neg hfirst] at hpages'
  obtain ⟨first, hbring, hrest⟩ := Option.bind_eq_some_iff.mp hpages'
  obtain ⟨hopen', hcells⟩ := bringIn_open hbring hopen
  have hended' : first.cells (table + (0 + 1)) = unmapped := by
    rw [hcells _ (by omega), Nat.zero_add]
    exact hended
  have hrest' : bringInPages (fun _ => some) table first (0 + 1) (1534 + 1) = some mid := hrest
  rw [bringInPages, if_pos hended'] at hrest'
  obtain rfl := Option.some.inj hrest'
  obtain ⟨hopen'', hcells'⟩ := bringIn_open hlast (Or.inl hopen')
  refine ⟨hopen'', fun q hq hq' => ?_⟩
  rw [hcells' _ ?_, hcells _ (by omega)]
  simp only [lastPage, memoryPages] at hq' ⊢
  omega

theorem swapOutPages_outside {table cell : Nat}
    (hcell : cell < table ∨ table + memoryPages ≤ cell) (n : Nat) :
    ∀ {s next : Paging} {i storedi : Nat}, i + n ≤ memoryPages →
      swapOutPages table s i n = some (storedi, next) → next.cells cell = s.cells cell := by
  induction n with
  | zero => exact fun _ => nofun
  | succ n ih =>
      intro s next i storedi hi h
      rw [swapOutPages] at h
      split at h
      · obtain ⟨-, rfl⟩ := Prod.mk.inj (Option.some.inj h)
        rfl
      · obtain ⟨mid, hmid, hrest⟩ := Option.bind_eq_some_iff.mp h
        obtain ⟨frame, hrehomed⟩ := rehome_spec hmid
        rw [ih (by omega) hrest, hrehomed.cells, Function.update_of_ne (by omega)]

theorem switchOut_outside {s next : Paging} {table cell : Nat}
    (hcell : cell < table ∨ table + memoryPages ≤ cell)
    (h : s.switchOut table = some next) : next.cells cell = s.cells cell := by
  obtain ⟨⟨storedi, mid⟩, hpages, hrest⟩ := Option.bind_eq_some_iff.mp h
  obtain ⟨⟨frame, after⟩, hout, heq⟩ := Option.bind_eq_some_iff.mp hrest
  obtain rfl := Option.some.inj heq
  change Function.update after.cells (table + lastPage) frame cell = s.cells cell
  have hlast := lastPage_lt
  rw [Function.update_of_ne (by omega), (swapOut_tables hout).2.1.cells]
  exact swapOutPages_outside hcell memoryPages (Nat.le_of_eq (Nat.zero_add _)) hpages

section Create

variable {s mid : Paging} {stale : Int} {table first last : Nat} (hrun : SafeRun s)
  (halone : s.Alone) (hcurrent : s.scheduler.current = some 0)
  (hadmitted : ∀ t other, s.tableOf t = some other →
    table + memoryPages ≤ other ∨ other + memoryPages ≤ table)
  (h : Started s mid stale table first last)

include hrun halone hcurrent h

theorem Started.switches {next : Paging} (hyield : mid.myPthreadYield = some next) :
    ∃ scheduler main after, s.tableOf 0 = some main ∧
      Paging.switchOut { mid with scheduler := scheduler } main = some after ∧
        after.switchIn table = some next ∧ next.scheduler.current = some 1 ∧
          next.tableOf 1 = some table := by
  obtain ⟨htabled, hsteady⟩ := hrun.reachable.tabled
  obtain ⟨-, garbage, hscheduler⟩ := halone.fresh.current_main hcurrent
  have hids := halone.fresh.ids
  obtain ⟨hpending, -, -, -⟩ := h.scheduler hsteady hcurrent
  obtain ⟨scheduler, switch, hyields', hyields, -, hpages⟩ := yield_cases hpending hyield
  have hswitch : switch = .swap 0 1 := by
    have henqueued := h.enqueued
    rw [hscheduler] at henqueued
    rw [← Option.some.inj henqueued] at hyields'
    exact (Prod.mk.inj (Option.some.inj hyields')).2.symm
  subst hswitch
  have hrewrites := switchPages_rewrites hpages
  obtain ⟨main, htable, hslot⟩ := htabled.table (hsteady.current_alive hcurrent)
  have hmain : mid.pageTables 0 = some main := by
    rw [h.pageTables, hids, Function.update_of_ne (by decide), hslot]
  have hnew : mid.pageTables 1 = some table := by
    rw [h.pageTables, hids, Function.update_self]
  obtain ⟨other, hother, hrest⟩ := Option.bind_eq_some_iff.mp hpages
  obtain rfl := Option.some.inj (hmain.symm.trans hother)
  obtain ⟨other, hother, hmoves⟩ := Option.bind_eq_some_iff.mp hrest
  obtain rfl := Option.some.inj (hnew.symm.trans hother)
  obtain ⟨after, hout, hin⟩ := Option.bind_eq_some_iff.mp hmoves
  refine ⟨scheduler, main, after, htable, hout, hin, ?_, ?_⟩
  · rw [hrewrites.scheduler]
    cases hyields.hands with
    | swap _ _ hnext _ => exact hnext
  · rw [hrewrites.tableOf, (rescheduled_threads hyields.threads hyields.threadIDS).table,
      h.tableOf hsteady hcurrent, hids, if_pos rfl]

/-- A frame is open that the new thread does not map: a page of main, or else the
one that the first page of the new thread comes from. -/
theorem Started.open : ∃ f, 0 < f ∧ f < lastPage ∧
    (s.place (0, f) = some f ∧ mid.masterTable f = true ∧ mid.accessible f = true ∨
      f = first) := by
  have htabled := hrun.reachable.tabled.1
  have howned := hrun.owned
  obtain ⟨-, hfree, -⟩ := nextFreePage_spec h.firstFree
  obtain ⟨-, -, hlastFree, -⟩ := nextFree_spec totalPages h.lastFree
  rcases Classical.em (∃ f, 0 < f ∧ f < lastPage ∧ s.place (0, f) = some f) with
    ⟨f, hlow, hhigh, hplace⟩ | hnone
  · refine ⟨f, hlow, hhigh, Or.inl ⟨hplace, ?_, ?_⟩⟩
    · rw [h.masterTable]
      exact update_open (update_open (howned.framed.used_of_place hplace))
    · have hused := howned.framed.used_of_place hplace
      have hf : f < memoryPages := Nat.lt_trans hhigh lastPage_lt
      have hfirst : f ≠ first := by
        rintro rfl
        rw [hfree] at hused
        cases hused
      have hlast : f ≠ last := by
        rintro rfl
        rw [Function.update_of_ne hfirst, hused] at hlastFree
        cases hlastFree
      rw [h.accessible, if_neg fun hor => hor.elim hfirst hlast]
      exact (halone.guarded f hf).mpr hplace
  · refine ⟨1, Nat.one_pos, by decide, Or.inr ?_⟩
    have hone : s.masterTable 1 = false := Bool.eq_false_iff.mpr fun hused =>
      hnone ⟨1, Nat.one_pos, by decide,
        alone_used htabled howned halone hcurrent hused⟩
    have hle := nextFreePage_le h.firstFree hone
    have hzero : first ≠ 0 := by
      rintro rfl
      obtain ⟨frame, hframe⟩ := Option.ne_none_iff_exists'.mp halone.first
      obtain rfl := howned.inPlace 0 hcurrent 0 frame hframe
      rw [howned.framed.used_of_place hframe] at hfree
      cases hfree
    omega

include hadmitted

theorem Started.unguarded {next : Paging} (hyield : mid.myPthreadYield = some next) :
    ¬ next.Guarded := by
  obtain ⟨htabled, hsteady⟩ := hrun.reachable.tabled
  obtain ⟨scheduler, main, after, hmain, hout, hin, hnext, htable⟩ :=
    h.switches hrun halone hcurrent hyield
  obtain ⟨f, hlow, hhigh, hopen⟩ := h.open hrun halone hcurrent
  have hapart := hadmitted 0 main hmain
  have hlast : lastPage = 1535 := rfl
  have hpages : memoryPages = 1536 := rfl
  have hcells : ∀ q, q < memoryPages →
      after.cells (table + q) = newTable s.cells table first last (table + q) := by
    intro q hq
    rw [switchOut_outside (by omega) hout]
    exact congrFun h.cells (table + q)
  have hfirst : after.cells table = first := by
    have hzero := hcells 0 (by omega)
    rwa [Nat.add_zero, newTable, if_neg (by omega), if_neg (by omega), if_pos rfl] at hzero
  have hended : ∀ q, 0 < q → q < lastPage → after.cells (table + q) = unmapped := by
    intro q hq hq'
    rw [hcells q (by omega), newTable, if_pos (by omega)]
  have hmapped : after.cells table ≠ unmapped := by
    rw [hfirst]
    exact lt_unmapped (nextFreePage_spec h.firstFree).1
  obtain ⟨haccess, hkept⟩ := switchIn_open (f := f) hmapped (hended 1 (by omega) (by omega)) hin
    (by
      rcases hopen with ⟨-, hused, hopen⟩ | rfl
      · exact Or.inl (switchOut_open (s := { mid with scheduler := scheduler }) hused hopen
          hout)
      · exact Or.inr ⟨hfirst.symm, by omega, by omega⟩)
  intro hguarded
  have hplace := ((hguarded 1 hnext f (by omega)).1).mp haccess
  obtain ⟨other, hother, -, hcell, hne⟩ := place_eq_some.mp hplace
  obtain rfl := Option.some.inj (htable.symm.trans hother)
  rw [hkept f hlow hhigh, hended f hlow hhigh] at hcell
  exact hne hcell.symm

end Create

/-- The bits agree with the table until a thread is created, and no longer then. -/
theorem protection_iff {s next : Paging} {c : Nat} {event : Event} (hrun : MainRun s)
    (hcurrent : s.scheduler.current = some c) (hadmitted : s.Admitted event)
    (h : s.step event = some next) :
    s.Guarded ∧ (next.Guarded ↔
      ∀ stale table beside beside', event ≠ .create stale table beside beside') := by
  refine ⟨hrun.guarded, fun hguarded => ?_, fun hevent =>
    (MainRun.step event hrun hcurrent hadmitted hevent h).guarded⟩
  rintro stale table beside beside' rfl
  obtain ⟨hsafe, halone⟩ := hrun.alone
  obtain ⟨rfl, -⟩ := halone.fresh.current_main hcurrent
  obtain ⟨mid, hmid, hyield⟩ := Option.bind_eq_some_iff.mp h
  obtain ⟨first, last, hstarted⟩ := startThread_spec hmid
  exact hstarted.unguarded hsafe halone hcurrent hadmitted hyield hguarded

/-- Main touches its second page and creates a thread. -/
theorem protection_iff_touched : ∃ s next, touched = some s ∧ shared = some next ∧
    s.Guarded ∧ (next.Guarded ↔ ∀ stale table beside beside',
      Event.create 0 2000 0 0 ≠ .create stale table beside beside') := by
  obtain ⟨s, hs, -, hscheduler⟩ := touched_run
  obtain ⟨next, hnext⟩ := Option.isSome_iff_exists.mp
    (by decide +kernel : shared.isSome = true)
  have hload : mainAlone.step (.load 4096) = some s := hs
  have hrun : MainRun s := .step (.load 4096) (.start _ _ _ _ _) rfl trivial nofun hload
  have hcurrent : s.scheduler.current = some 0 := by
    rw [hscheduler]
    rfl
  have hadmitted : s.Admitted (.create 0 2000 0 0) := by
    intro t other hother
    have htouch : mainAlone.touch 4096 = some s := hs
    rw [(touch_rewrites htouch).tableOf] at hother
    exact mainAlone_admitted t other hother
  refine ⟨s, next, hs, hnext, protection_iff hrun hcurrent hadmitted ?_⟩
  rw [← hnext, shared, hs, Option.bind_some]

/-- The frame that the first page of a new thread was in stays open. -/
theorem protection_fails : ¬ ∀ s, Reachable s → s.Guarded := by
  intro h
  obtain ⟨s, hs, hrun⟩ := mainAlone_create
  have hfacts : created.map (fun s => (s.scheduler.current, s.accessible 1,
      s.place (1, 1))) = some (some 1, true, none) := by
    decide +kernel
  rw [created, hs] at hfacts
  obtain ⟨hcurrent, haccess, hplace⟩ : s.scheduler.current = some 1 ∧
      s.accessible 1 = true ∧ s.place (1, 1) = none := by
    simpa using Option.some.inj hfacts
  have hheld := ((h s hrun.reachable 1 hcurrent 1 (by decide)).1).mp haccess
  rw [hplace] at hheld
  cases hheld

end Paging

end RutgersOS.Assignment2
