import RutgersOS.Assignment2.Exits
import RutgersOS.Assignment2.Filling

namespace RutgersOS.Assignment2.Scheduler

open RutgersOS.Pthread

structure Paired (s : Scheduler) (n : Nat) (node other : QueueNode) : Prop where
  current : s.current = some node.thread
  ids : s.threadIDS = n
  mainEnqueued : s.mainEnqueued = true
  nodes : s.nodes = [node, other]
  active : ∀ t, t ≤ 1 → ∃ value, s.threads t = some ⟨.active, value⟩
  gone : ∀ t, 1 < t → s.threads t = none

structure Idle (s : Scheduler) (n : Nat) : Prop where
  paired : ∃ priority priority', s.Paired n ⟨0, priority⟩ ⟨1, priority'⟩
  first : s.queuePriority1.waiting = []

structure Busy (s : Scheduler) (n : Nat) : Prop where
  current : s.current = some n
  ids : s.threadIDS = n + 1
  mainEnqueued : s.mainEnqueued = true
  first : ∃ priority, s.queuePriority1.waiting = [⟨n, priority⟩]
  second : ∃ priority priority', s.queuePriority2.waiting = [⟨0, priority⟩, ⟨1, priority'⟩]
  active : ∀ t, t ≤ 1 ∨ t = n → ∃ value, s.threads t = some ⟨.active, value⟩
  gone : ∀ t, 1 < t → t ≠ n → s.threads t = none

structure Left (s : Scheduler) (n : Nat) : Prop where
  current : s.current = some 0
  ids : s.threadIDS = n + 1
  mainEnqueued : s.mainEnqueued = true
  first : s.queuePriority1.waiting = []
  second : ∃ priority priority', s.queuePriority2.waiting = [⟨0, priority⟩, ⟨1, priority'⟩]
  active : ∀ t, t ≤ 1 → ∃ value, s.threads t = some ⟨.active, value⟩
  completed : ∃ value, s.threads n = some ⟨.completed, value⟩
  gone : ∀ t, 1 < t → t ≠ n → s.threads t = none

theorem Paired.yield {s : Scheduler} {n : Nat} {node other : QueueNode}
    (h : s.Paired n node other) (hnode : node.thread ≤ 1) (hother : other.thread ≤ 1) :
    ∃ next, s.myPthreadYield = some (next, .swap node.thread other.thread) ∧
      next.Paired n other { node with priority := 2 } ∧
      next.queuePriority1.waiting = s.queuePriority1.waiting.tail := by
  have hactive : ∀ n ∈ s.nodes, ∃ value, s.threads n.thread = some ⟨.active, value⟩ := by
    intro n hn
    rw [h.nodes] at hn
    rcases List.mem_pair.mp hn with rfl | rfl
    · exact h.active _ hnode
    · exact h.active _ hother
  obtain ⟨next, t, hyield, hcurrent, hrotated⟩ := yield_rotate h.nodes h.current hactive
  have hready := hrotated.current
  rw [ready, hrotated.nodes] at hready
  obtain rfl := Option.some.inj (hcurrent.symm.trans hready)
  exact ⟨next, hyield,
    { current := hcurrent
      ids := hrotated.threadIDS.trans h.ids
      mainEnqueued := hrotated.mainEnqueued.trans h.mainEnqueued
      nodes := hrotated.nodes
      active := hrotated.threads ▸ h.active
      gone := hrotated.threads ▸ h.gone }, hrotated.first⟩

theorem paired_first (garbage stale : Int) : ∃ next,
    (initializeScheduler garbage).myPthreadCreate stale = some (next, .swap 0 1) ∧
      next.Paired 2 ⟨1, 1⟩ ⟨0, 1⟩ ∧ next.queuePriority1.waiting.length = 2 := by
  obtain ⟨next, hcreate, hcurrent, hids, hmain, hfirst, hsecond, hthreads⟩ :=
    initializeScheduler_create garbage stale
  refine ⟨next, hcreate,
    { current := hcurrent
      ids := hids
      mainEnqueued := hmain
      nodes := ?_
      active := ?_
      gone := ?_ }, ?_⟩
  · rw [nodes, hfirst, hsecond]
    rfl
  · intro t ht
    rw [hthreads]
    rcases Nat.le_one_iff_eq_zero_or_eq_one.mp ht with rfl | rfl
    · exact ⟨garbage, rfl⟩
    · exact ⟨stale, rfl⟩
  · intro t ht
    rw [hthreads, Function.update_of_ne (by omega), Function.update_of_ne (by omega)]
  · rw [hfirst]
    rfl

theorem Idle.current {s : Scheduler} {n : Nat} (h : s.Idle n) : s.current = some 0 := by
  obtain ⟨priority, priority', hpaired⟩ := h.paired
  exact hpaired.current

theorem Idle.create {s : Scheduler} {n : Nat} (h : s.Idle n) (hn : 1 < n) (stale : Int) :
    ∃ next, s.myPthreadCreate stale = some (next, .swap 0 n) ∧ next.Busy n := by
  obtain ⟨priority, priority', hpaired⟩ := h.paired
  have hsecond := hpaired.nodes
  rw [nodes, h.first, List.nil_append] at hsecond
  obtain ⟨mid, henqueue, hcurrent, hids, hmain, hfirst, hsame, hthreads⟩ : ∃ mid,
      s.enqueueThread stale = some mid ∧ mid.current = some 0 ∧ mid.threadIDS = n + 1 ∧
        mid.mainEnqueued = true ∧ mid.queuePriority1.waiting = [⟨n, 1⟩] ∧
        mid.queuePriority2 = s.queuePriority2 ∧
        mid.threads = Function.update s.threads n (some ⟨.active, stale⟩) := by
    have hmain : (s.setThread n (some ⟨.active, stale⟩)).mainEnqueued = true :=
      hpaired.mainEnqueued
    rw [enqueueThread, hpaired.ids]
    dsimp only
    rw [if_pos hmain]
    refine ⟨_, rfl, hpaired.current, rfl, hmain, ?_, rfl, rfl⟩
    change (s.queuePriority1.enqueue ⟨n, 1⟩).waiting = _
    rw [Queue.waiting_enqueue, h.first, List.nil_append]
  have hnodes : mid.nodes = ⟨n, 1⟩ :: s.queuePriority2.waiting := by
    rw [nodes, hfirst, hsame]
    rfl
  have hyield := yield_to_head hnodes (by
    rw [hcurrent]
    exact fun heq => absurd (Option.some.inj heq).symm (by omega : n ≠ 0))
  rw [hcurrent] at hyield
  refine ⟨{ mid with current := some n }, Option.bind_eq_some_iff.mpr ⟨mid, henqueue, hyield⟩,
    { current := rfl
      ids := hids
      mainEnqueued := hmain
      first := ⟨1, hfirst⟩
      second := ⟨priority, priority', hsame ▸ hsecond⟩
      active := ?_
      gone := ?_ }⟩
  · intro t ht
    change ∃ value, mid.threads t = some ⟨.active, value⟩
    rw [hthreads]
    rcases Classical.em (t = n) with rfl | hne
    · exact ⟨stale, Function.update_self _ _ _⟩
    · rw [Function.update_of_ne hne]
      exact hpaired.active t (ht.resolve_right hne)
  · intro t ht hne
    change mid.threads t = none
    rw [hthreads, Function.update_of_ne hne]
    exact hpaired.gone t ht

theorem Busy.exit {s : Scheduler} {n : Nat} (h : s.Busy n) (hn : 1 < n) (valuePtr : Int) :
    ∃ mid next, s.removeCurrent valuePtr = some mid ∧
      mid.myPthreadYield = some (next, .resume 0) ∧ next.Left n := by
  obtain ⟨priority, hfirst⟩ := h.first
  obtain ⟨main, other, hsecond⟩ := h.second
  obtain ⟨value, hactive⟩ := h.active n (Or.inr rfl)
  obtain ⟨queue, hremove, hempty, -⟩ :=
    removeCurrent_first hfirst h.current hactive valuePtr
  have hnodes : Scheduler.nodes { s.setThread n (some
      ⟨.completed, if valuePtr ≠ 0 then valuePtr else value⟩) with
        current := none, queuePriority1 := queue } = [⟨0, main⟩, ⟨1, other⟩] := by
    change queue.waiting ++ s.queuePriority2.waiting = _
    rw [hempty, List.nil_append]
    exact hsecond
  have hyield := yield_to_head hnodes (Option.some_ne_none _).symm
  refine ⟨_, _, hremove, hyield,
    { current := rfl
      ids := h.ids
      mainEnqueued := h.mainEnqueued
      first := hempty
      second := ⟨main, other, hsecond⟩
      active := ?_
      completed := ⟨_, Function.update_self _ _ _⟩
      gone := ?_ }⟩
  · intro t ht
    obtain ⟨other, hthread⟩ := h.active t (Or.inl ht)
    exact ⟨other, (Function.update_of_ne (by omega) _ _).trans hthread⟩
  · intro t ht hne
    exact (Function.update_of_ne hne _ _).trans (h.gone t ht hne)

theorem Left.join {s : Scheduler} {n : Nat} (h : s.Left n) (hn : 1 < n) :
    (s.setThread n none).Idle (n + 1) := by
  obtain ⟨main, other, hsecond⟩ := h.second
  refine ⟨⟨main, other,
    { current := h.current
      ids := h.ids
      mainEnqueued := h.mainEnqueued
      nodes := ?_
      active := ?_
      gone := ?_ }⟩, h.first⟩
  · change s.queuePriority1.waiting ++ s.queuePriority2.waiting = _
    rw [h.first, List.nil_append]
    exact hsecond
  · intro t ht
    obtain ⟨value, hthread⟩ := h.active t ht
    exact ⟨value, (Function.update_of_ne (by omega) _ _).trans hthread⟩
  · intro t ht
    rw [setThread]
    rcases Classical.em (t = n) with rfl | hne
    · exact Function.update_self _ _ _
    · exact (Function.update_of_ne hne _ _).trans (h.gone t ht hne)

end RutgersOS.Assignment2.Scheduler

namespace RutgersOS.Assignment2.Paging

open RutgersOS.Memory RutgersOS.Pthread

/-- The table of every later thread is in the memory that a join gave back. -/
structure Round (s : Paging) (scheduled : Scheduler → Prop) : Prop where
  run : SafeRun s
  scheduled : scheduled s.scheduler
  mainTable : s.pageTables 0 = some 0
  firstTable : s.pageTables 1 = some 2000
  tables : ∀ t table, 1 < t → s.pageTables t = some table → table = 4000
  untouched : ∀ t, t ≤ 1 → s.Untouched t

theorem yield_pageTables {s next : Paging} (hpending : s.scheduler.Pending)
    (h : s.myPthreadYield = some next) : next.pageTables = s.pageTables := by
  obtain ⟨scheduler, switch, -, -, -, hpages⟩ := yield_cases hpending h
  exact (switchPages_rewrites hpages).pageTables

theorem create_pageTables {s next : Paging} {c table : Nat} (hsteady : s.scheduler.Steady)
    (hcurrent : s.scheduler.current = some c) (h : s.step (.create 0 table 0 0) = some next) :
    next.pageTables = Function.update s.pageTables s.scheduler.threadIDS (some table) := by
  obtain ⟨mid, hmid, hyield⟩ := Option.bind_eq_some_iff.mp h
  obtain ⟨first, last, hstarted⟩ := startThread_spec hmid
  exact (yield_pageTables (hstarted.scheduler hsteady hcurrent).1 hyield).trans
    hstarted.pageTables

theorem releasePages_returns {table stop : Nat} (n : Nat) : ∀ {s : Paging} {i : Nat},
    s.cells (table + stop) = unmapped → i ≤ stop → stop < i + n →
      ∃ next, releasePages table s i n = some next := by
  induction n with
  | zero =>
      intro s i _ hle hlt
      omega
  | succ n ih =>
      intro s i hended hle hlt
      rw [releasePages]
      split
      · exact ⟨s, rfl⟩
      · next hmapped =>
          have hne : i ≠ stop := by
            rintro rfl
            exact hmapped hended
          have hsame := (releasePage_unmarked s table i).cells
          exact ih (hsame ▸ hended) (by omega) (by omega)

namespace Round

variable {s : Paging} {n : Nat}

theorem free (h : Round s fun scheduler => ∀ t, 1 < t → scheduler.threads t = none) :
    totalPages ≤ s.freeFrames.card + 4 := by
  have hkeys : ∀ key, s.place key ≠ none →
      key ∈ ({0, 1} ×ˢ {0, lastPage} : Finset (Nat × Nat)) := by
    rintro ⟨t, q⟩ hkey
    have ht : t ≤ 1 := by
      refine Nat.not_lt.mp fun hlt => hkey ?_
      cases hplace : s.place (t, q) with
      | none => rfl
      | some frame =>
          obtain ⟨table, htable, -⟩ := place_eq_some.mp hplace
          exact absurd (h.scheduled t hlt) (alive_of_tableOf htable)
    have hq := (h.untouched t ht q).mp hkey
    rw [Finset.mem_product, Finset.mem_insert, Finset.mem_singleton, Finset.mem_insert,
      Finset.mem_singleton]
    exact ⟨Nat.le_one_iff_eq_zero_or_eq_one.mp ht, hq⟩
  have hused := usedFrames_card_le_keys h.run.owned hkeys
  have hcard : (({0, 1} : Finset Nat) ×ˢ ({0, lastPage} : Finset Nat)).card = 4 := by
    rw [Finset.card_product, Finset.card_pair (by decide), Finset.card_pair (by decide)]
  have hsum := s.freeFrames_add_used
  omega

theorem yield {node other : QueueNode} (h : Round s (·.Paired n node other))
    (hnode : node.thread ≤ 1) (hother : other.thread ≤ 1) :
    ∃ next, s.step .yield = some next ∧
      Round next (·.Paired n other { node with priority := 2 }) ∧
      next.scheduler.queuePriority1.waiting = s.scheduler.queuePriority1.waiting.tail := by
  obtain ⟨-, hsteady⟩ := h.run.reachable.tabled
  have hfree := free { h with scheduled := h.scheduled.gone }
  have htotal : totalPages = 5632 := rfl
  obtain ⟨scheduler, hyield, hpaired, hfirst⟩ := h.scheduled.yield hnode hother
  obtain ⟨next, hstep, hrun, hhanded⟩ := h.run.handOver h.scheduled.current hyield
    (h.untouched _ hnode) (h.untouched _ hother) (by omega)
  have hpageTables := yield_pageTables hsteady.pending hstep
  refine ⟨next, hstep,
    { run := hrun
      scheduled := hhanded.scheduler.symm ▸ hpaired
      mainTable := hpageTables ▸ h.mainTable
      firstTable := hpageTables ▸ h.firstTable
      tables := hpageTables ▸ h.tables
      untouched := fun t ht => hhanded.untouched (h.untouched t ht) }, ?_⟩
  rw [hhanded.scheduler]
  exact hfirst

theorem start : ∃ s, mainAlone.step (.create 0 2000 0 0) = some s ∧
    Round s (·.Paired 2 ⟨1, 1⟩ ⟨0, 1⟩) ∧ s.scheduler.queuePriority1.waiting.length = 2 := by
  obtain ⟨scheduler, hcreate, hpaired, hfirst⟩ := Scheduler.paired_first 0 0
  obtain ⟨s, hs, hcreated⟩ := mainAlone_run.createAt (c := 0) rfl hcreate (by decide)
    mainAlone_endsAt Nat.zero_lt_one (by rw [mainAlone_free]; decide) mainAlone_admitted
  have hpageTables := create_pageTables mainAlone_run.reachable.tabled.2 rfl hs
  refine ⟨s, hs,
    { run := hcreated.run
      scheduled := hcreated.scheduler.symm ▸ hpaired
      mainTable := ?_
      firstTable := ?_
      tables := ?_
      untouched := ?_ }, ?_⟩
  · rw [hpageTables]
    rfl
  · rw [hpageTables]
    rfl
  · intro t table ht htable
    have hone : t ≠ mainAlone.scheduler.threadIDS := Nat.ne_of_gt ht
    rw [hpageTables, Function.update_of_ne hone, mainAlone,
      initializeMemory_pageTables _ _ _ _ _ (by omega)] at htable
    cases htable
  · intro t ht
    rcases Nat.le_one_iff_eq_zero_or_eq_one.mp ht with rfl | rfl
    · intro q
      rw [hcreated.old 0 q Nat.zero_ne_one]
      exact mainAlone_pages q
    · exact hcreated.new
  · rw [hcreated.scheduler]
    exact hfirst

theorem admitted (h : Round s (·.Idle n)) : s.Admitted (.create 0 4000 0 0) := by
  intro t other hother
  obtain ⟨_, _, hpaired⟩ := h.scheduled.paired
  have ht : t ≤ 1 := Nat.not_lt.mp fun hlt => alive_of_tableOf hother (hpaired.gone t hlt)
  have hslot := pageTables_of_tableOf hother
  right
  rcases Nat.le_one_iff_eq_zero_or_eq_one.mp ht with rfl | rfl
  · obtain rfl := Option.some.inj (h.mainTable.symm.trans hslot)
    decide
  · obtain rfl := Option.some.inj (h.firstTable.symm.trans hslot)
    decide

theorem create (h : Round s (·.Idle n)) (hn : 1 < n) (hroom : n < maxThreads) :
    ∃ next, s.step (.create 0 4000 0 0) = some next ∧ Round next (·.Busy n) ∧
      next.Untouched n ∧ 0 < next.freeFrames.card := by
  obtain ⟨-, hsteady⟩ := h.run.reachable.tabled
  obtain ⟨_, _, hpaired⟩ := h.scheduled.paired
  have hcurrent := h.scheduled.current
  have hids := hpaired.ids
  have hfree := free { h with scheduled := hpaired.gone }
  have htotal : totalPages = 5632 := rfl
  obtain ⟨scheduler, hcreate, hbusy⟩ := h.scheduled.create hn 0
  obtain ⟨next, hstep, hcreated⟩ := h.run.createAt hcurrent (hids.symm ▸ hcreate)
    (hids.symm ▸ hroom) (.new (h.untouched 0 (Nat.zero_le 1))) Nat.zero_lt_one (by omega)
    h.admitted
  have hpageTables := create_pageTables hsteady hcurrent hstep
  rw [hids] at hpageTables
  have hold : ∀ t, t ≤ 1 → t ≠ n := by
    intro t ht
    omega
  refine ⟨next, hstep,
    { run := hcreated.run
      scheduled := hcreated.scheduler.symm ▸ hbusy
      mainTable := ?_
      firstTable := ?_
      tables := ?_
      untouched := ?_ }, hids ▸ hcreated.new, ?_⟩
  · rw [hpageTables, Function.update_of_ne (hold 0 (Nat.zero_le 1))]
    exact h.mainTable
  · rw [hpageTables, Function.update_of_ne (hold 1 (Nat.le_refl 1))]
    exact h.firstTable
  · intro t table ht htable
    rw [hpageTables] at htable
    rcases Classical.em (t = n) with rfl | hne
    · rw [Function.update_self] at htable
      exact (Option.some.inj htable).symm
    · rw [Function.update_of_ne hne] at htable
      exact h.tables t table ht htable
  · intro t ht q
    rw [hcreated.old t q (hids ▸ hold t ht)]
    exact h.untouched t ht q
  · have hless := hcreated.free
    omega

theorem liveCell {scheduled : Scheduler → Prop} (h : Round s scheduled)
    (halive : ∀ t, t ≤ 1 ∨ t = n → s.scheduler.Alive t) (hn : 1 < n) {j table k : Nat}
    (hslot : s.pageTables j = some table) (hk : k < memoryPages) : s.LiveCell (table + k) := by
  rcases Nat.lt_or_ge 1 j with hlt | hle
  · obtain ⟨other, hother, hslot'⟩ := h.run.reachable.tabled.1.table (halive n (Or.inr rfl))
    obtain rfl := h.tables j table hlt hslot
    obtain rfl := h.tables n other hn hslot'
    exact ⟨n, 4000, k, hother, hk, rfl⟩
  · exact ⟨j, table, k, (tableOf_eq (halive j (Or.inl hle))).trans hslot, hk, rfl⟩

theorem exit_safe {mid : Paging} {scheduler : Scheduler} (h : Round s (·.Busy n)) (hn : 1 < n)
    (huntouched : s.Untouched n) (hfree : 0 < s.freeFrames.card) (hleave : s.leave 0 = some mid)
    (hyield : mid.scheduler.myPthreadYield = some (scheduler, .resume 0))
    (hroom : scheduler.threadIDS < maxThreads) : mid.YieldSafe := by
  obtain ⟨-, hsteady⟩ := h.run.reachable.tabled
  have hcurrent := h.scheduled.current
  obtain ⟨hsame, hpending, -⟩ := leave_spec hsteady hcurrent hleave
  intro other switch hother
  obtain ⟨rfl, rfl⟩ := Prod.mk.inj (Option.some.inj (hyield.symm.trans hother))
  obtain ⟨_, _, hagain, hyields, -⟩ := hpending.yields
  obtain ⟨rfl, rfl⟩ := Prod.mk.inj (Option.some.inj (hyield.symm.trans hagain))
  have hafter := rescheduled_threads hyields.threads hyields.threadIDS
  have hplace := hafter.place.trans hsame.place
  have halive : ∀ t, t ≤ 1 ∨ t = n → s.scheduler.Alive t := by
    intro t ht
    obtain ⟨value, hactive⟩ := h.scheduled.active t ht
    rw [Scheduler.Alive, hactive]
    exact Option.some_ne_none _
  have hlive : ∀ cell, s.LiveCell cell →
      Paging.LiveCell { mid with scheduler := scheduler } cell := by
    rintro cell ⟨t, table, q, htable, hq, rfl⟩
    exact ⟨t, table, q, by rw [hafter.table, hsame.table, htable], hq, rfl⟩
  have hfound : ∀ j table k, mid.pageTables j = some table → k < memoryPages →
      Paging.LiveCell { mid with scheduler := scheduler } (table + k) := by
    intro j table k hslot hk
    exact hlive _ (h.liveCell halive hn (hsame.pageTables ▸ hslot) hk)
  obtain ⟨last, hlast⟩ :=
    Option.ne_none_iff_exists'.mp ((huntouched lastPage).mpr (Or.inr rfl))
  obtain rfl := h.run.owned.inPlace n hcurrent _ _ hlast
  have hpages : ∀ q, Paging.place { mid with scheduler := scheduler } (0, q) ≠ none ↔
      q = 0 ∨ q = lastPage := by
    rw [hplace]
    exact h.untouched 0 (Nat.zero_le 1)
  refine @resume_safe _ 0 n ((hpages 0).mpr (Or.inl rfl)) (fun q => (hpages q).mp) hroom ?_
    hfound ?_
  · obtain ⟨frame, hframe⟩ := nextFreePage_of_free hfree
    change nextFree mid.masterTable 0 totalPages ≠ none
    rw [hsame.masterTable]
    change s.nextFreePage ≠ none
    rw [hframe]
    exact Option.some_ne_none frame
  · rw [hplace]
    exact hlast

theorem exit (h : Round s (·.Busy n)) (hn : 1 < n) (huntouched : s.Untouched n)
    (hfree : 0 < s.freeFrames.card) (hroom : n + 1 < maxThreads) :
    ∃ next, s.step (.exit 0) = some next ∧ Round next (·.Left n) ∧ next.Untouched n := by
  obtain ⟨htabled, hsteady⟩ := h.run.reachable.tabled
  have hcurrent := h.scheduled.current
  obtain ⟨removed, scheduler, hremove, hyield, hleft⟩ := h.scheduled.exit hn 0
  obtain ⟨mid, hleave, hmid⟩ : ∃ mid, s.leave 0 = some mid ∧ mid.scheduler = removed := by
    rw [leave, hcurrent, Option.bind_eq_bind, Option.bind_some, hremove]
    exact ⟨_, rfl, rfl⟩
  obtain ⟨hsame, hpending, hnone, -⟩ := leave_spec hsteady hcurrent hleave
  have hyield' : mid.scheduler.myPthreadYield = some (scheduler, .resume 0) := hmid ▸ hyield
  have hsafe := h.exit_safe hn huntouched hfree hleave hyield' (hleft.ids ▸ hroom)
  obtain ⟨next, hnext, hhanded⟩ := yield_hands_over hpending (hsame.tabled htabled)
    (hsame.owned h.run.owned hnone) hsafe hyield'
  have hstep : s.step (.exit 0) = some next :=
    Option.bind_eq_some_iff.mpr ⟨mid, hleave, hnext⟩
  have hsafe' : s.Safe (.exit 0) := by
    intro other hother
    obtain rfl := Option.some.inj (hleave.symm.trans hother)
    exact hsafe
  have hpageTables := (yield_pageTables hpending hnext).trans hsame.pageTables
  have hmapped : ∀ t, s.Untouched t → next.Untouched t := by
    intro t ht q
    rw [hhanded.mapped, hsame.place]
    exact ht q
  exact ⟨next, hstep,
    { run := .step (.exit 0) h.run hcurrent trivial hsafe' hstep
      scheduled := hhanded.scheduler.symm ▸ hleft
      mainTable := hpageTables ▸ h.mainTable
      firstTable := hpageTables ▸ h.firstTable
      tables := hpageTables ▸ h.tables
      untouched := fun t ht => hmapped t (h.untouched t ht) },
    hmapped n huntouched⟩

theorem join (h : Round s (·.Left n)) (hn : 1 < n) (huntouched : s.Untouched n) :
    ∃ next, s.step (.join n) = some next ∧ Round next (·.Idle (n + 1)) := by
  obtain ⟨htabled, -⟩ := h.run.reachable.tabled
  obtain ⟨value, hcompleted⟩ := h.scheduled.completed
  have halive : s.scheduler.Alive n := by
    rw [Scheduler.Alive, hcompleted]
    exact Option.some_ne_none _
  obtain ⟨table, htable, hslot⟩ := htabled.table halive
  have hends : s.EndsAt n 1 := .new huntouched
  obtain ⟨mid, hmid⟩ := releasePages_returns memoryPages
    ((place_eq_none htable hends.lt).mp hends.ended) (Nat.zero_le 1) (by decide)
  obtain ⟨next, hrelease⟩ : ∃ next, s.releaseThread n = some next :=
    ⟨_, Option.bind_eq_some_iff.mpr
      ⟨table, hslot, Option.bind_eq_some_iff.mpr ⟨mid, hmid, rfl⟩⟩⟩
  have hstep : s.step (.join n) = some next := by
    refine Option.bind_eq_some_iff.mpr ⟨_, hcompleted, ?_⟩
    rw [if_neg fun hne => hne rfl]
    exact hrelease
  have hsafe : s.Safe (.join n) := by
    change s.JoinSafe n
    rw [JoinSafe, hcompleted, Option.map_some, if_pos rfl]
    refine ⟨1, hends, fun q hmapped => ?_⟩
    exact ((huntouched q).mp hmapped).imp_left fun hzero => by omega
  have hforgotten := releaseThread_forgotten hrelease
  refine ⟨next, hstep,
    { run := .step (.join n) h.run h.scheduled.current trivial hsafe hstep
      scheduled := ?_
      mainTable := hforgotten.pageTables ▸ h.mainTable
      firstTable := hforgotten.pageTables ▸ h.firstTable
      tables := hforgotten.pageTables ▸ h.tables
      untouched := ?_ }⟩
  · rw [hforgotten.scheduler]
    exact h.scheduled.join hn
  · intro t ht q
    have hne : t ≠ n := by omega
    rw [hforgotten.place, if_neg hne]
    exact h.untouched t ht q

end Round

end RutgersOS.Assignment2.Paging
