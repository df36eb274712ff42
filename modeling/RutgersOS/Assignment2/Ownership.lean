import RutgersOS.Assignment2.Faults
import RutgersOS.Assignment2.Requests

namespace RutgersOS.Assignment2.Paging

open RutgersOS.Memory RutgersOS.Pthread

/-- A used frame is taken from the thread that the search finds. -/
def MapSafe (s : Paging) (i : Nat) : Prop :=
  s.masterTable i = true →
    (∀ c, s.scheduler.current = some c → s.place (c, i) = none) →
      s.scheduler.threadIDS < maxThreads ∧ s.nextFreePage ≠ none ∧ s.StaleFree i

section Mapping

variable {s : Paging} {c table i : Nat} (htabled : s.Tabled) (howned : s.Owned)
  (hcurrent : s.scheduler.current = some c) (htable : s.tableOf c = some table)

include htabled howned hcurrent htable

theorem Cleared.mapped {mid : Paging} (h : Cleared True s mid c i) (hi : i < memoryPages)
    (habsent : s.place (c, i) = none) :
    Mapped mid (((mid.setCell (table + i) i).mark i true).protect i true) c i ∧
      Paging.Owned (((mid.setCell (table + i) i).mark i true).protect i true) := by
  obtain ⟨delayed, hframed, hdelayed⟩ := h.framed
  have hmapped :
      Mapped mid (((mid.setCell (table + i) i).mark i true).protect i true) c i :=
    mapped_spec (h.rewrites.apart htabled.apart) (h.rewrites.tableOf ▸ htable) hi
      (h.absent _ habsent) h.vacant hframed hdelayed
      (rewrites_protect (rewrites_mark (setCell_rewrites mid _ (page_lt_total hi)) i true)
        i true) rfl rfl
  refine ⟨hmapped, hmapped.owned (h.rewrites.scheduler ▸ hcurrent) ?_⟩
  intro q frame hplace
  cases hkey : s.place (c, q) with
  | none =>
      rw [h.absent _ hkey] at hplace
      cases hplace
  | some other =>
      obtain rfl := howned.inPlace c hcurrent q other hkey
      have hne : other ≠ i := by
        rintro rfl
        rw [habsent] at hkey
        cases hkey
      exact Option.some.inj (hplace.symm.trans (h.kept _ _ hkey fun _ => hne))

theorem mapPage_clears {mid : Paging} (hi : i < memoryPages) (hsafe : s.MapSafe i)
    (h : s.masterTable i = true ∧ s.cells (table + i) ≠ i ∧ evict i s = some mid ∨
      s.masterTable i = false ∧ mid = s) :
    s.place (c, i) = none ∧ Cleared True s mid c i := by
  rcases h with ⟨hused, hcell, hevict⟩ | ⟨hfree, rfl⟩
  · have habsent : s.place (c, i) = none := by
      cases hplace : s.place (c, i) with
      | none => rfl
      | some frame =>
          obtain rfl := howned.inPlace c hcurrent i frame hplace
          obtain ⟨other, hother, -, hnamed, -⟩ := place_eq_some.mp hplace
          obtain rfl := Option.some.inj (htable.symm.trans hother)
          exact absurd hnamed hcell
    obtain ⟨hroom, hnext, hstale⟩ := hsafe hused fun d hd => by
      rwa [← Option.some.inj (hcurrent.symm.trans hd)]
    obtain ⟨other, hother, hcleared⟩ := evict_clears htabled.apart howned.framed hi
      htabled.slots c hroom (fun _ _ => htabled.lt) hstale hnext
    obtain rfl := Option.some.inj (hevict.symm.trans hother)
    exact ⟨habsent, hcleared⟩
  · have hvacant := (howned.framed.vacant hfree).1
    refine ⟨?_, .of_vacant c howned.framed hvacant⟩
    cases hplace : mid.place (c, i) with
    | none => rfl
    | some frame =>
        obtain rfl := howned.inPlace c hcurrent i frame hplace
        exact absurd hplace (hvacant _)

theorem mapPage_owned {next : Paging} (hsafe : s.MapSafe i)
    (h : s.mapPage table i = some next) : next.Owned := by
  obtain ⟨hi, ⟨-, -, rfl⟩ | ⟨mid, hmid, rfl⟩⟩ := mapPage_cases h
  · exact howned
  · obtain ⟨habsent, hcleared⟩ :=
      mapPage_clears htabled howned hcurrent htable hi hsafe hmid
    exact (hcleared.mapped htabled howned hcurrent htable hi habsent).2

end Mapping

theorem Started.owned {s next : Paging} {stale : Int} {table first last c : Nat}
    (h : Started s next stale table first last) (hsteady : s.scheduler.Steady)
    (hcurrent : s.scheduler.current = some c) (htabled : s.Tabled) (howned : s.Owned)
    (hadmitted : ∀ t other, s.tableOf t = some other →
      table + memoryPages ≤ other ∨ other + memoryPages ≤ table) : next.Owned := by
  have hplace := h.place hsteady hcurrent hadmitted
  have hnew : ∀ q, s.place (s.scheduler.threadIDS, q) = none := by
    intro q
    cases hkey : s.place (s.scheduler.threadIDS, q) with
    | none => rfl
    | some frame =>
        obtain ⟨other, hother, -⟩ := place_eq_some.mp hkey
        exact absurd (htabled.lt hother) (Nat.lt_irrefl _)
  -- the two pages appear one after the other
  obtain ⟨place', hplace'⟩ : ∃ place' : Nat × Nat → Option Nat, ∀ key, place' key =
      if key = (s.scheduler.threadIDS, 0) then some first else s.place key := ⟨_, fun _ => rfl⟩
  have happears : Appears s.place place' (s.scheduler.threadIDS, 0) first :=
    ⟨hnew 0, (howned.framed.vacant (nextFreePage_spec h.firstFree).2.1).1,
      (hplace' _).trans (if_pos rfl), fun key hne => (hplace' key).trans (if_neg hne)⟩
  have hframed := happears.framed howned.framed
  have hlast := (nextFree_spec totalPages h.lastFree).2.2.1
  have happears' : Appears place' next.place (s.scheduler.threadIDS, lastPage) last := by
    refine ⟨?_, (hframed.vacant hlast).1, ?_, ?_⟩
    · rw [hplace', if_neg (by simp [lastPage, memoryPages])]
      exact hnew lastPage
    · rw [hplace, if_pos rfl, if_neg (by decide), if_pos rfl]
    · rintro ⟨t, q⟩ hne
      rw [hplace, hplace']
      rcases Classical.em (t = s.scheduler.threadIDS) with rfl | ht
      · have hq : q ≠ lastPage := fun heq => hne (by rw [heq])
        rw [if_pos rfl, if_neg hq]
        rcases Classical.em (q = 0) with rfl | hzero
        · rw [if_pos rfl, if_pos rfl]
        · rw [if_neg hzero, if_neg fun heq => hzero (Prod.mk.inj heq).2]
          exact (hnew q).symm
      · rw [if_neg ht, if_neg fun heq => ht (Prod.mk.inj heq).1]
  refine ⟨?_, ?_⟩
  · rw [h.masterTable]
    apply (happears'.framed hframed).congr
    intro frame
    exact iff_of_false id fun hin => hin.1.1
  · intro d hd q frame hframe
    rw [(h.scheduler hsteady hcurrent).2.1] at hd
    rw [hplace, if_neg fun heq => ?_] at hframe
    · exact howned.inPlace d hd q frame hframe
    · have hlt := htabled.alive d (hsteady.current_alive hd)
      exact Nat.ne_of_lt hlt heq

/-- The loop and the last entry cover the table. -/
def ReleaseSafe (s : Paging) (t : Nat) : Prop :=
  ∃ stop, s.EndsAt t stop ∧ ∀ q, s.place (t, q) ≠ none → Moved stop q

structure Unmarked (s next : Paging) (entries : Nat → Prop) : Prop where
  cells : next.cells = s.cells
  masterTable : ∀ f, next.masterTable f = true ↔
    s.masterTable f = true ∧ ∀ cell, entries cell → s.cells cell ≠ f
  accessible : ∀ f, next.accessible f = true ↔
    s.accessible f = true ∨ f < memoryPages ∧ ∃ cell, entries cell ∧ s.cells cell = f

theorem Unmarked.none (s : Paging) {entries : Nat → Prop} (h : ∀ cell, ¬ entries cell) :
    Unmarked s s entries where
  cells := rfl
  masterTable _ := (and_iff_left fun cell hcell => absurd hcell (h cell)).symm
  accessible _ := (or_iff_left fun hin => hin.2.elim fun cell hcell => h cell hcell.1).symm

theorem Unmarked.trans {first second third : Paging} {entries entries' all : Nat → Prop}
    (h : Unmarked first second entries) (h' : Unmarked second third entries')
    (hall : ∀ cell, all cell ↔ entries cell ∨ entries' cell) : Unmarked first third all where
  cells := h'.cells.trans h.cells
  masterTable f := by
    rw [h'.masterTable, h.masterTable, h.cells]
    constructor
    · rintro ⟨⟨hused, hfirst⟩, hsecond⟩
      exact ⟨hused, fun cell hcell => ((hall cell).mp hcell).elim (hfirst cell) (hsecond cell)⟩
    · rintro ⟨hused, hboth⟩
      exact ⟨⟨hused, fun cell hcell => hboth cell ((hall cell).mpr (Or.inl hcell))⟩,
        fun cell hcell => hboth cell ((hall cell).mpr (Or.inr hcell))⟩
  accessible f := by
    rw [h'.accessible, h.accessible, h.cells]
    constructor
    · rintro ((hopen | ⟨hf, cell, hcell, heq⟩) | ⟨hf, cell, hcell, heq⟩)
      · exact Or.inl hopen
      · exact Or.inr ⟨hf, cell, (hall cell).mpr (Or.inl hcell), heq⟩
      · exact Or.inr ⟨hf, cell, (hall cell).mpr (Or.inr hcell), heq⟩
    · rintro (hopen | ⟨hf, cell, hcell, heq⟩)
      · exact Or.inl (Or.inl hopen)
      · rcases (hall cell).mp hcell with hfirst | hsecond
        · exact Or.inl (Or.inr ⟨hf, cell, hfirst, heq⟩)
        · exact Or.inr ⟨hf, cell, hsecond, heq⟩

theorem releasePage_unmarked (s : Paging) (table i : Nat) :
    Unmarked s (s.releasePage table i) (fun cell => cell = table + i) := by
  have hmaster : (s.releasePage table i).masterTable =
      Function.update s.masterTable (s.cells (table + i)) false := by
    unfold releasePage
    dsimp only
    split
    · rfl
    · rfl
  have haccess : (s.releasePage table i).accessible =
      if s.cells (table + i) < memoryPages then
        Function.update s.accessible (s.cells (table + i)) true
      else s.accessible := by
    unfold releasePage
    dsimp only
    split
    · rfl
    · rfl
  refine ⟨(releasePage_same s table i).1.cells, ?_, ?_⟩
  · intro f
    rw [hmaster, forall_eq]
    rcases Classical.em (s.cells (table + i) = f) with rfl | hne
    · rw [Function.update_self]
      exact iff_of_false Bool.false_ne_true fun hin => hin.2 rfl
    · rw [Function.update_of_ne (Ne.symm hne)]
      exact (and_iff_left hne).symm
  · intro f
    rw [haccess, exists_eq_left]
    rcases Classical.em (s.cells (table + i) = f) with rfl | hne
    · split
      · next hf =>
          rw [Function.update_self]
          exact iff_of_true rfl (Or.inr ⟨hf, rfl⟩)
      · next hf => exact (or_iff_left fun hin => hf hin.1).symm
    · split
      · rw [Function.update_of_ne (Ne.symm hne)]
        exact (or_iff_left fun hin => hne hin.2).symm
      · exact (or_iff_left fun hin => hne hin.2).symm

theorem releasePages_unmarked {table stop : Nat} (n : Nat) : ∀ {s next : Paging} {i : Nat},
    (∀ k, k < stop → s.cells (table + k) ≠ unmapped) →
    s.cells (table + stop) = unmapped → i ≤ stop →
    releasePages table s i n = some next →
      Unmarked s next (fun cell => ∃ k, i ≤ k ∧ k < stop ∧ cell = table + k) := by
  induction n with
  | zero => exact fun _ _ _ => nofun
  | succ n ih =>
      intro s next i hmapped hended hle h
      rw [releasePages] at h
      rcases Nat.lt_or_eq_of_le hle with hmore | rfl
      · rw [if_neg (hmapped i hmore)] at h
        have hfirst := releasePage_unmarked s table i
        have hrest := ih (hfirst.cells ▸ hmapped) (hfirst.cells ▸ hended) hmore h
        apply hfirst.trans hrest
        intro cell
        constructor
        · rintro ⟨k, hik, hk, rfl⟩
          rcases Nat.lt_or_eq_of_le hik with hlater | rfl
          · exact Or.inr ⟨k, hlater, hk, rfl⟩
          · exact Or.inl rfl
        · rintro (rfl | ⟨k, hik, hk, rfl⟩)
          · exact ⟨i, Nat.le_refl i, hmore, rfl⟩
          · exact ⟨k, Nat.le_of_succ_le hik, hk, rfl⟩
      · rw [if_pos hended] at h
        obtain rfl := Option.some.inj h
        exact .none s fun cell hcell => by
          obtain ⟨k, hik, hk, -⟩ := hcell
          omega

/-- All entries that `my_pthread_join` releases. -/
theorem releaseThread_unmarked {s next : Paging} {t table stop : Nat}
    (htable : s.tableOf t = some table) (hends : s.EndsAt t stop)
    (h : s.releaseThread t = some next) :
    Unmarked s next (fun cell => ∃ k, Moved stop k ∧ cell = table + k) := by
  obtain ⟨other, hother, hrest⟩ := Option.bind_eq_some_iff.mp h
  obtain rfl := Option.some.inj ((pageTables_of_tableOf htable).symm.trans hother)
  obtain ⟨mid, hmid, heq⟩ := Option.bind_eq_some_iff.mp hrest
  obtain rfl := Option.some.inj heq
  have hmapped : ∀ k, k < stop → s.cells (table + k) ≠ unmapped := by
    intro k hk
    rw [Ne, ← place_eq_none htable (Nat.lt_trans hk hends.lt)]
    exact hends.mapped k hk
  have hpages := releasePages_unmarked memoryPages hmapped
    ((place_eq_none htable hends.lt).mp hends.ended) (Nat.zero_le stop) hmid
  have hall : Unmarked s (mid.releasePage table lastPage)
      (fun cell => ∃ k, Moved stop k ∧ cell = table + k) := by
    apply hpages.trans (releasePage_unmarked mid table lastPage)
    intro cell
    constructor
    · rintro ⟨k, hk | rfl, rfl⟩
      · exact Or.inl ⟨k, Nat.zero_le k, hk, rfl⟩
      · exact Or.inr rfl
    · rintro (⟨k, -, hk, rfl⟩ | rfl)
      · exact ⟨k, Or.inl hk, rfl⟩
      · exact ⟨lastPage, Or.inr rfl, rfl⟩
  exact ⟨hall.cells, hall.masterTable, hall.accessible⟩

theorem release_owned {s next : Paging} {t : Nat} (htabled : s.Tabled) (howned : s.Owned)
    (hcurrent : s.scheduler.current ≠ some t) (halive : s.scheduler.Alive t)
    (hsafe : s.ReleaseSafe t) (h : s.releaseThread t = some next) : next.Owned := by
  obtain ⟨stop, hends, hall⟩ := hsafe
  obtain ⟨table, htable, -⟩ := htabled.table halive
  have hforgotten := releaseThread_forgotten h
  have hunmarked := releaseThread_unmarked htable hends h
  have hplace := hforgotten.place
  have hold : ∀ {key frame}, next.place key = some frame →
      key.1 ≠ t ∧ s.place key = some frame := by
    rintro ⟨u, q⟩ frame hkey
    rw [hplace] at hkey
    split at hkey
    · cases hkey
    · next hne => exact ⟨hne, hkey⟩
  refine ⟨⟨?_, ?_⟩, ?_⟩
  · intro first second frame hfirst hsecond
    exact howned.framed.separate _ _ frame (hold hfirst).2 (hold hsecond).2
  · intro f
    rw [hunmarked.masterTable, howned.framed.marks, or_false, or_false]
    constructor
    · rintro ⟨hheld, hkept⟩ hvacant
      obtain ⟨⟨u, q⟩, hkey⟩ := exists_of_not_vacant hheld
      rcases Classical.em (u = t) with rfl | hne
      · obtain ⟨other, hother, -, hcell, -⟩ := place_eq_some.mp hkey
        obtain rfl := Option.some.inj (htable.symm.trans hother)
        refine hkept (table + q) ⟨q, hall q ?_, rfl⟩ hcell
        rw [hkey]
        nofun
      · refine hvacant (u, q) ?_
        rw [hplace, if_neg hne]
        exact hkey
    · intro hheld
      obtain ⟨⟨u, q⟩, hkey⟩ := exists_of_not_vacant hheld
      obtain ⟨hne, hkey⟩ := hold hkey
      refine ⟨not_vacant hkey, ?_⟩
      rintro cell ⟨k, hk, rfl⟩ hcell
      have hframe : f ≠ unmapped := lt_unmapped (htabled.ranged _ f hkey)
      have hk' : k < memoryPages := by
        rcases hk with hlt | rfl
        · exact Nat.lt_trans hlt hends.lt
        · exact lastPage_lt
      have hown := place_eq_some.mpr ⟨table, htable, hk', hcell, hframe⟩
      exact hne (Prod.mk.inj (howned.framed.separate _ _ f hkey hown)).1
  · intro c hc q frame hkey
    rw [hforgotten.scheduler] at hc
    exact howned.inPlace c hc q frame (hold hkey).2

def JoinSafe (s : Paging) (t : Nat) : Prop :=
  if (s.scheduler.threads t).map Thread.state = some .completed then s.ReleaseSafe t
  else s.YieldSafe

/-- What an event needs to keep the tables in agreement. -/
def Safe (s : Paging) : Event → Prop
  | .create stale table beside beside' =>
      ∀ mid, s.startThread stale table beside beside' = some mid → mid.YieldSafe
  | .yield => s.YieldSafe
  | .exit valuePtr => ∀ mid, s.leave valuePtr = some mid → mid.YieldSafe
  | .join thread => s.JoinSafe thread
  | .load address => s.AccessSafe address
  | .store address _ => s.AccessSafe address
  | .setValue p _ _ => s.AccessSafe p ∧ ∀ mid, s.touch p = some mid → mid.AccessSafe (p + 3)
  | .mapPage i => s.MapSafe i
  | .reuse _ _ => True

inductive SafeRun : Paging → Prop
  | start (memory swapFile : Bytes) (cells : Nat → Nat) (table : Nat) (stale : Int) :
      SafeRun (initializeMemory memory swapFile cells table stale)
  | step {s next : Paging} {current : Nat} (event : Event) : SafeRun s →
      s.scheduler.current = some current → s.Admitted event → s.Safe event →
        s.step event = some next → SafeRun next

theorem initializeMemory_owned (memory swapFile : Bytes) (cells : Nat → Nat) (table : Nat)
    (stale : Int) : (initializeMemory memory swapFile cells table stale).Owned := by
  have hplace := initializeMemory_place memory swapFile cells table stale
  have hheld : ∀ {key frame},
      (initializeMemory memory swapFile cells table stale).place key = some frame →
        key = (0, frame) ∧ (frame = 0 ∨ frame = lastPage) := by
    rintro ⟨t, q⟩ frame hkey
    rw [hplace] at hkey
    split at hkey
    · next hmain =>
        obtain rfl := Option.some.inj hkey
        obtain ⟨rfl, hq⟩ := hmain
        exact ⟨rfl, hq⟩
    · cases hkey
  have hmaster : ∀ f, (initializeMemory memory swapFile cells table stale).masterTable f =
      true ↔ f = 0 ∨ f = lastPage := fun f => decide_eq_true_iff
  refine ⟨⟨?_, ?_⟩, ?_⟩
  · intro first second frame hfirst hsecond
    exact (hheld hfirst).1.trans (hheld hsecond).1.symm
  · intro f
    rw [hmaster, or_false]
    constructor
    · intro hf
      have hkey := hplace 0 f
      rw [if_pos ⟨rfl, hf⟩] at hkey
      exact not_vacant hkey
    · intro hf
      obtain ⟨key, hkey⟩ := exists_of_not_vacant hf
      exact (hheld hkey).2
  · intro c _ q frame hkey
    exact (Prod.mk.inj (hheld hkey).1).2.symm

theorem yield_owned {s next : Paging} (hpending : s.scheduler.Pending) (htabled : s.Tabled)
    (howned : s.Owned) (hsafe : s.YieldSafe) (h : s.myPthreadYield = some next) :
    next.Owned := by
  obtain ⟨other, hother, hyielded⟩ := yield_spec hpending htabled howned hsafe
  obtain rfl := Option.some.inj (hother.symm.trans h)
  exact hyielded.owned

theorem Rescheduled.owned {s mid : Paging} (h : Rescheduled s mid) (howned : s.Owned)
    (hnone : mid.scheduler.current = none) : mid.Owned := by
  refine ⟨?_, ?_⟩
  · rw [h.place, h.masterTable]
    exact howned.framed
  · intro c hc
    rw [hnone] at hc
    cases hc

theorem Owned.store {s : Paging} (h : s.Owned) (memory : Bytes) :
    Paging.Owned { s with memory := memory } :=
  ⟨h.framed, h.inPlace⟩

theorem place_reuse {s : Paging} {cell : Nat} (value : Nat) (h : ¬ s.LiveCell cell) :
    Paging.place (s.setCell cell value) = s.place := by
  funext ⟨t, q⟩
  unfold place
  dsimp only
  change (s.tableOf t).bind _ = (s.tableOf t).bind _
  cases htable : s.tableOf t with
  | none => rfl
  | some table =>
      rw [Option.bind_some, Option.bind_some]
      rcases Nat.lt_or_ge q memoryPages with hq | hq
      · have hcell : (s.setCell cell value).cells (table + q) = s.cells (table + q) := by
          apply Function.update_of_ne
          rintro rfl
          exact h ⟨t, table, q, htable, hq, rfl⟩
        rw [hcell]
      · rw [if_neg fun hin => Nat.not_lt.mpr hq hin.1,
          if_neg fun hin => Nat.not_lt.mpr hq hin.1]

theorem step_owned {s next : Paging} {event : Event} {current : Nat} (htabled : s.Tabled)
    (hsteady : s.scheduler.Steady) (howned : s.Owned)
    (hcurrent : s.scheduler.current = some current) (hadmitted : s.Admitted event)
    (hsafe : s.Safe event) (h : s.step event = some next) : next.Owned := by
  have htouch : ∀ {mid address}, s.AccessSafe address → s.touch address = some mid →
      mid.Owned := touch_owned hcurrent hsteady htabled howned
  cases event with
  | create stale table beside beside' =>
      obtain ⟨mid, hmid, hyield⟩ := Option.bind_eq_some_iff.mp h
      obtain ⟨first, last, hstarted⟩ := startThread_spec hmid
      exact yield_owned (hstarted.scheduler hsteady hcurrent).1
        (hstarted.tabled hsteady hcurrent hadmitted htabled)
        (hstarted.owned hsteady hcurrent htabled howned hadmitted) (hsafe mid hmid) hyield
  | yield => exact yield_owned hsteady.pending htabled howned hsafe h
  | exit valuePtr =>
      obtain ⟨mid, hmid, hyield⟩ := Option.bind_eq_some_iff.mp h
      obtain ⟨hsame, hpending, hnone, -⟩ := leave_spec hsteady hcurrent hmid
      exact yield_owned hpending (hsame.tabled htabled) (hsame.owned howned hnone)
        (hsafe mid hmid) hyield
  | join thread =>
      obtain ⟨struct, hstruct, hrest⟩ := Option.bind_eq_some_iff.mp h
      change s.JoinSafe thread at hsafe
      rw [JoinSafe, hstruct, Option.map_some] at hsafe
      split at hrest
      · next hactive =>
          rw [if_neg fun heq => hactive (Option.some.inj heq)] at hsafe
          exact yield_owned hsteady.pending htabled howned hsafe hrest
      · next hstate =>
          have hcompleted := Classical.not_not.mp hstate
          rw [if_pos (congrArg some hcompleted)] at hsafe
          exact release_owned htabled howned (hsteady.release hstruct hcompleted).2
            (fun hnone => by rw [hstruct] at hnone; cases hnone) hsafe hrest
  | load address => exact htouch hsafe h
  | store address byte =>
      obtain ⟨mid, hmid, heq⟩ := Option.bind_eq_some_iff.mp h
      obtain rfl := Option.some.inj heq
      exact (htouch hsafe hmid).store _
  | setValue p size allocation =>
      obtain ⟨last, hlast, heq⟩ := Option.bind_eq_some_iff.mp h
      obtain rfl := Option.some.inj heq
      obtain ⟨first, hfirst, hsecond⟩ := Option.bind_eq_some_iff.mp hlast
      have hrewrites := touch_rewrites hfirst
      exact (touch_owned (hrewrites.scheduler ▸ hcurrent) (hrewrites.scheduler ▸ hsteady)
        (htabled.rewrites hrewrites) (htouch hsafe.1 hfirst) (hsafe.2 first hfirst)
        hsecond).store _
  | mapPage i =>
      obtain ⟨c, table, hc, htable, hmap⟩ := mapEvent_cases h
      have htable' : s.tableOf c = some table :=
        (tableOf_eq (hsteady.current_alive hc)).trans htable
      exact mapPage_owned htabled howned hc htable' hsafe hmap
  | reuse cell value =>
      obtain rfl := Option.some.inj h
      have hplace := place_reuse value hadmitted
      refine ⟨?_, ?_⟩
      · rw [hplace]
        exact howned.framed
      · rw [hplace]
        exact howned.inPlace

theorem SafeRun.reachable {s : Paging} (h : SafeRun s) : Reachable s := by
  induction h with
  | start memory swapFile cells table stale => exact .start memory swapFile cells table stale
  | step event _ hcurrent hadmitted _ hnext ih => exact .step event ih hcurrent hadmitted hnext

theorem SafeRun.owned {s : Paging} (h : SafeRun s) : s.Owned := by
  induction h with
  | start memory swapFile cells table stale =>
      exact initializeMemory_owned memory swapFile cells table stale
  | step event hrun hcurrent hadmitted hsafe hnext ih =>
      obtain ⟨htabled, hsteady⟩ := hrun.reachable.tabled
      exact step_owned htabled hsteady ih hcurrent hadmitted hsafe hnext

/-- A thread that has only its first and its last page can take over. -/
theorem Swappable.of_new {s : Paging} {t u stop : Nat}
    (hframed : Framed s.place s.masterTable (fun _ => False))
    (hplaced : ∀ q frame, s.place (t, q) = some frame → frame = q)
    (hends : s.EndsAt t stop) (hpositive : 0 < stop)
    (hlast : s.place (t, lastPage) ≠ none)
    (hnew : ∀ q, s.place (u, q) ≠ none ↔ q = 0 ∨ q = lastPage) :
    Swappable s t u stop 1 where
  ends := hends
  ends' := .new hnew
  stays := by
    intro q frame hout hkey
    rcases (hnew q).mp (by rw [hkey]; nofun) with rfl | rfl
    · exact absurd (Or.inl Nat.zero_lt_one) hout
    · exact absurd (Or.inr rfl) hout
  clear := by
    intro i hi _
    have hown : Moved stop i ∧ s.place (t, i) = some i := by
      have hmoved : Moved stop i := hi.imp_left fun hlt => by omega
      refine ⟨hmoved, ?_⟩
      cases hkey : s.place (t, i) with
      | none =>
          rcases hmoved with hlt | rfl
          · exact absurd hkey (hends.mapped i hlt)
          · exact absurd hkey hlast
      | some frame => exact congrArg some (hplaced i frame hkey)
    refine ⟨?_, ?_⟩
    · intro hmem
      have hused := hframed.used_of_place hown.2
      rw [landing_free _ hmem] at hused
      cases hused
    · intro key hkey
      obtain rfl := hframed.separate _ _ _ hkey hown.2
      exact Or.inl ⟨rfl, hown.1⟩

theorem handover_safe {s : Paging} {c u stop : Nat} (hpending : s.scheduler.Pending)
    (htabled : s.Tabled) (howned : s.Owned) (hcurrent : s.scheduler.current = some c)
    (hswitch : ∀ scheduler switch, s.scheduler.myPthreadYield = some (scheduler, switch) →
      switch = .swap c u)
    (hends : s.EndsAt c stop) (hpositive : 0 < stop)
    (hnew : ∀ q, s.place (u, q) ≠ none ↔ q = 0 ∨ q = lastPage)
    (henough : (landing s.masterTable (stop + 1)).length = stop + 1) : s.YieldSafe := by
  intro scheduler switch hyield
  obtain ⟨other, switch', hother, hyields, -⟩ := hpending.yields
  obtain ⟨rfl, rfl⟩ := Prod.mk.inj (Option.some.inj (hyield.symm.trans hother))
  obtain rfl := hswitch scheduler switch hyield
  have hplace := (rescheduled_threads hyields.threads hyields.threadIDS).place
  have halive : s.scheduler.Alive c := by
    cases hyields.hands with
    | swap _ hgone _ _ => exact hgone
  refine ⟨stop, 1, ?_, henough⟩
  apply Swappable.of_new
  · rw [hplace]
    exact howned.framed
  · rw [hplace]
    exact howned.inPlace c hcurrent
  · refine ⟨fun k hk => ?_, ?_, hends.lt⟩
    · rw [hplace]
      exact hends.mapped k hk
    · rw [hplace]
      exact hends.ended
  · exact hpositive
  · rw [hplace]
    exact htabled.placeLast halive
  · intro q
    rw [hplace]
    exact hnew q

theorem Started.new_place {s mid : Paging} {stale : Int} {table first last c : Nat}
    (h : Started s mid stale table first last) (hsteady : s.scheduler.Steady)
    (hcurrent : s.scheduler.current = some c)
    (hadmitted : ∀ t other, s.tableOf t = some other →
      table + memoryPages ≤ other ∨ other + memoryPages ≤ table) (q : Nat) :
    mid.place (s.scheduler.threadIDS, q) ≠ none ↔ q = 0 ∨ q = lastPage := by
  rw [h.place hsteady hcurrent hadmitted, if_pos rfl]
  split
  · next hzero => exact iff_of_true nofun (Or.inl hzero)
  · next hzero =>
      split
      · next hlast => exact iff_of_true nofun (Or.inr hlast)
      · next hlast => exact iff_of_false (fun h => h rfl) fun h => h.elim hzero hlast

theorem Started.landing {s mid : Paging} {stale : Int} {table first last : Nat}
    (h : Started s mid stale table first last) (n : Nat) :
    landing s.masterTable (n + 2) = first :: last :: landing mid.masterTable n := by
  rw [landing_succ h.firstFree, Paging.landing, h.lastFree, h.masterTable]

theorem create_safe {s : Paging} {c stop : Nat} {stale : Int} {table : Nat}
    {beside beside' : BitVec 32} (hsteady : s.scheduler.Steady) (htabled : s.Tabled)
    (howned : s.Owned) (hcurrent : s.scheduler.current = some c)
    (hswitch : ∀ scheduler switch, s.scheduler.myPthreadCreate stale = some (scheduler, switch) →
      switch = .swap c s.scheduler.threadIDS)
    (hends : s.EndsAt c stop) (hpositive : 0 < stop)
    (henough : (landing s.masterTable (stop + 3)).length = stop + 3)
    (hadmitted : s.Admitted (.create stale table beside beside')) :
    s.Safe (.create stale table beside beside') := by
  intro mid hmid
  obtain ⟨first, last, hstarted⟩ := startThread_spec hmid
  obtain ⟨hpending, hrunning, -, -⟩ := hstarted.scheduler hsteady hcurrent
  have hplace := hstarted.place hsteady hcurrent hadmitted
  have hne : c ≠ s.scheduler.threadIDS :=
    Nat.ne_of_lt (htabled.alive c (hsteady.current_alive hcurrent))
  have hsame : ∀ q, mid.place (c, q) = s.place (c, q) := by
    intro q
    rw [hplace, if_neg hne]
  apply handover_safe hpending (hstarted.tabled hsteady hcurrent hadmitted htabled)
    (hstarted.owned hsteady hcurrent htabled howned hadmitted) (hrunning.trans hcurrent)
  · intro scheduler switch hyield
    apply hswitch scheduler switch
    exact Option.bind_eq_some_iff.mpr ⟨mid.scheduler, hstarted.enqueued, hyield⟩
  · refine ⟨fun k hk => ?_, ?_, hends.lt⟩
    · rw [hsame]
      exact hends.mapped k hk
    · rw [hsame]
      exact hends.ended
  · exact hpositive
  · exact hstarted.new_place hsteady hcurrent hadmitted
  · rw [hstarted.landing (stop + 1)] at henough
    simpa using henough

/-- The first `my_pthread_create` gives way to the new thread. -/
theorem firstCreate_safe {s : Paging} {stop : Nat} {garbage stale : Int} {table : Nat}
    {beside beside' : BitVec 32}
    (hscheduler : s.scheduler = Scheduler.initializeScheduler garbage) (htabled : s.Tabled)
    (howned : s.Owned) (hends : s.EndsAt 0 stop) (hpositive : 0 < stop)
    (henough : (landing s.masterTable (stop + 3)).length = stop + 3)
    (hadmitted : s.Admitted (.create stale table beside beside')) :
    s.Safe (.create stale table beside beside') := by
  have hsteady : s.scheduler.Steady := Or.inl ⟨garbage, Or.inl hscheduler⟩
  have hcurrent : s.scheduler.current = some 0 := by
    rw [hscheduler]
    rfl
  refine create_safe hsteady htabled howned hcurrent ?_ hends hpositive henough hadmitted
  intro scheduler switch hcreate
  rw [hscheduler] at hcreate ⊢
  exact (Prod.mk.inj (Option.some.inj hcreate)).2.symm

/-- In such a run no frame is shared, `masterTable` marks the frames in use, and
the pages of the running thread are in place. -/
theorem frame_ownership {s : Paging} (h : SafeRun s) :
    (∀ t u p q frame, s.place (t, p) = some frame → s.place (u, q) = some frame →
        (t, p) = (u, q)) ∧
      (∀ frame, s.masterTable frame = true ↔ ∃ t p, s.place (t, p) = some frame) ∧
      ∀ current, s.scheduler.current = some current → ∀ p frame,
        s.place (current, p) = some frame → frame = p := by
  have howned := h.owned
  refine ⟨?_, ?_, howned.inPlace⟩
  · intro t u p q frame hfirst hsecond
    exact howned.framed.separate _ _ frame hfirst hsecond
  · intro frame
    rw [howned.framed.marks, or_false]
    constructor
    · intro hheld
      obtain ⟨⟨t, p⟩, hplace⟩ := exists_of_not_vacant hheld
      exact ⟨t, p, hplace⟩
    · rintro ⟨t, p, hplace⟩
      exact not_vacant hplace

/-- Main alone, with its page table at the start of the OS region. -/
def mainAlone : Paging :=
  initializeMemory (fun _ => 0) (fun _ => 0) (fun _ => 0) 0 0

theorem mainAlone_admitted : mainAlone.Admitted (.create 0 2000 0 0) := by
  intro t other hother
  rw [mainAlone, initializeMemory_tableOf] at hother
  split at hother
  · obtain rfl := Option.some.inj hother
    right
    decide
  · cases hother

theorem mainAlone_run : SafeRun mainAlone :=
  .start _ _ _ _ _

theorem mainAlone_endsAt : mainAlone.EndsAt 0 1 :=
  .one (by decide) (by decide)

theorem mainAlone_safe : mainAlone.Safe (.create 0 2000 0 0) :=
  firstCreate_safe rfl mainAlone_run.reachable.tabled.1 mainAlone_run.owned mainAlone_endsAt
    Nat.zero_lt_one rfl mainAlone_admitted

theorem mainAlone_create : ∃ s, mainAlone.step (.create 0 2000 0 0) = some s ∧
    SafeRun s := by
  obtain ⟨s, hs⟩ := Option.isSome_iff_exists.mp
    (by decide +kernel : (mainAlone.step (.create 0 2000 0 0)).isSome = true)
  exact ⟨s, hs, .step _ mainAlone_run rfl mainAlone_admitted mainAlone_safe hs⟩

theorem frame_ownership_create : ∃ s, mainAlone.step (.create 0 2000 0 0) = some s ∧
    (∀ t u p q frame, s.place (t, p) = some frame → s.place (u, q) = some frame →
        (t, p) = (u, q)) ∧
      (∀ frame, s.masterTable frame = true ↔ ∃ t p, s.place (t, p) = some frame) ∧
      ∀ current, s.scheduler.current = some current → ∀ p frame,
        s.place (current, p) = some frame → frame = p := by
  obtain ⟨s, hs, hrun⟩ := mainAlone_create
  exact ⟨s, hs, frame_ownership hrun⟩

def twoPages : Option Paging := do
  let s ← mainAlone.step (.create 0 2000 0 0)
  let (_, s) ← s.myallocate 5000 10
  s.step .yield

def overlap : Option Paging := do
  let s ← twoPages
  let s ← s.step (.create 0 4000 0 0)
  s.step .yield

theorem twoPages_reachable : ∃ s, twoPages = some s ∧ Reachable s := by
  obtain ⟨s₃, h₃⟩ := Option.isSome_iff_exists.mp
    (by decide +kernel : twoPages.isSome = true)
  have hsteps := h₃
  unfold twoPages at hsteps
  obtain ⟨s₁, h₁, hrest⟩ := Option.bind_eq_some_iff.mp hsteps
  obtain ⟨⟨p, s₂⟩, h₂, hyield⟩ := Option.bind_eq_some_iff.mp hrest
  have hcurrent : (mainAlone.step (.create 0 2000 0 0)).map (·.scheduler.current) =
      some (some 1) := by
    decide +kernel
  rw [h₁] at hcurrent
  have hone : s₁.scheduler.current = some 1 := Option.some.inj hcurrent
  have hreachable : Reachable s₁ := .step _ (.start _ _ _ _ _) rfl mainAlone_admitted h₁
  have hrequests := myallocate_requests h₂
  have hcurrent' : s₂.scheduler.current = some 1 := hrequests.rewrites.scheduler ▸ hone
  exact ⟨s₃, h₃, .step .yield (hrequests.reachable hone hreachable) hcurrent' trivial hyield⟩

theorem overlap_reachable : ∃ s, overlap = some s ∧ Reachable s := by
  obtain ⟨s, hs, hreachable⟩ := twoPages_reachable
  obtain ⟨s₂, h₂⟩ := Option.isSome_iff_exists.mp
    (by decide +kernel : overlap.isSome = true)
  have hsteps := h₂
  unfold overlap at hsteps
  obtain ⟨other, hother, hrest⟩ := Option.bind_eq_some_iff.mp hsteps
  obtain rfl := Option.some.inj (hs.symm.trans hother)
  obtain ⟨s₁, h₁, hyield⟩ := Option.bind_eq_some_iff.mp hrest
  have hscheduler : twoPages.map (fun s =>
      (s.scheduler.current, s.scheduler.threadIDS, s.pageTables 0, s.pageTables 1)) =
        some (some 0, 2, some 0, some 2000) := by
    decide +kernel
  rw [hs] at hscheduler
  obtain ⟨hzero, hids, hmain, hone⟩ : s.scheduler.current = some 0 ∧
      s.scheduler.threadIDS = 2 ∧ s.pageTables 0 = some 0 ∧ s.pageTables 1 = some 2000 := by
    simpa using Option.some.inj hscheduler
  have hadmitted : s.Admitted (.create 0 4000 0 0) := by
    intro t table htable
    have hslot := pageTables_of_tableOf htable
    have hlt := hreachable.tabled.1.lt htable
    rw [hids] at hlt
    have hpages : memoryPages = 1536 := rfl
    rcases Nat.le_one_iff_eq_zero_or_eq_one.mp (Nat.le_of_lt_succ hlt) with rfl | rfl
    · obtain rfl := Option.some.inj (hmain.symm.trans hslot)
      omega
    · obtain rfl := Option.some.inj (hone.symm.trans hslot)
      omega
  have hcurrent : (twoPages.bind fun s => s.step (.create 0 4000 0 0)).map
      (·.scheduler.current) = some (some 2) := by
    decide +kernel
  rw [hs, Option.bind_some, h₁] at hcurrent
  exact ⟨s₂, h₂, .step .yield (.step _ hreachable hzero hadmitted h₁)
    (Option.some.inj hcurrent) trivial hyield⟩

theorem frame_ownership_overlap : ¬ ∀ s, Reachable s →
    (∀ t u p q frame, s.place (t, p) = some frame → s.place (u, q) = some frame →
        (t, p) = (u, q)) ∧
      (∀ frame, s.masterTable frame = true ↔ ∃ t p, s.place (t, p) = some frame) ∧
      ∀ current, s.scheduler.current = some current → ∀ p frame,
        s.place (current, p) = some frame → frame = p := by
  intro h
  obtain ⟨s, hs, hreachable⟩ := overlap_reachable
  have hplaces : (overlap.map fun s => (s.place (1, 1), s.place (2, 0))) =
      some (some 1, some 1) := by
    decide +kernel
  rw [hs] at hplaces
  obtain ⟨hfirst, hsecond⟩ := Prod.mk.inj (Option.some.inj hplaces)
  exact absurd ((h s hreachable).1 1 2 1 0 1 hfirst hsecond) (by decide)

end RutgersOS.Assignment2.Paging
