import Mathlib.Combinatorics.Enumerative.DoubleCounting
import RutgersOS.Assignment2.Blanks
import RutgersOS.Assignment2.Growth

namespace RutgersOS.Assignment2.Scheduler

open RutgersOS.Pthread

theorem yield_second {s : Scheduler} {first second : QueueNode} {size value value' : Int}
    (hqueue : s.queuePriority1 = ⟨[second, first], size⟩)
    (hcurrent : s.current = some first.thread)
    (hfirst : s.threads first.thread = some ⟨.active, value⟩)
    (hsecond : s.threads second.thread = some ⟨.active, value'⟩) :
    ∃ next, s.myPthreadYield = some (next, .swap first.thread second.thread) ∧
      next.current = some second.thread ∧ next.queuePriority1 = ⟨[second], size - 1⟩ ∧
      next.threads = s.threads ∧ next.threadIDS = s.threadIDS ∧
      next.mainEnqueued = s.mainEnqueued := by
  have hpeek : s.queuePriority1.peek = some first := by
    rw [hqueue]
    rfl
  have hdequeue : s.queuePriority1.dequeue = some (first, ⟨[second], size - 1⟩) := by
    rw [hqueue]
    rfl
  have hrequeue := requeue_eq (s := { s with
    current := some first.thread, queuePriority1 := ⟨[second], size - 1⟩ }) hfirst
  have hrun := runNext_eq (s := { s with
    current := some first.thread
    queuePriority1 := ⟨[second], size - 1⟩
    queuePriority2 := s.queuePriority2.enqueue { first with priority := 2 } })
    first.thread hsecond
  refine ⟨{ s with
    current := some second.thread
    queuePriority1 := ⟨[second], size - 1⟩
    queuePriority2 := s.queuePriority2.enqueue { first with priority := 2 } },
    ?_, rfl, rfl, rfl, rfl, rfl⟩
  simp only [myPthreadYield, hpeek, hcurrent, ne_eq, not_true_eq_false, if_false, hdequeue,
    Option.bind_eq_bind, Option.bind_some, hrequeue]
  exact hrun

structure Fronted (s : Scheduler) (c n : Nat) : Prop where
  current : s.current = some c
  ids : s.threadIDS = n
  mainEnqueued : s.mainEnqueued = true
  front : ∃ node size, s.queuePriority1 = ⟨[node], size⟩ ∧ node.thread = c
  active : ∀ t, t < n → ∃ value, s.threads t = some ⟨.active, value⟩

theorem Fronted.create {s : Scheduler} {c n : Nat} (h : s.Fronted c n) (hlt : c < n)
    (stale : Int) : ∃ next, s.myPthreadCreate stale = some (next, .swap c n) ∧
      next.Fronted n (n + 1) := by
  obtain ⟨node, size, hqueue, rfl⟩ := h.front
  obtain ⟨value, hthread⟩ := h.active node.thread hlt
  have hne : node.thread ≠ n := Nat.ne_of_lt hlt
  obtain ⟨mid, henqueue, hcurrent, hids, hmain, hfront, hthreads⟩ : ∃ mid,
      s.enqueueThread stale = some mid ∧ mid.current = some node.thread ∧
        mid.threadIDS = n + 1 ∧ mid.mainEnqueued = true ∧
        mid.queuePriority1 = ⟨[⟨n, 1⟩, node], size + 1⟩ ∧
        mid.threads = Function.update s.threads n (some ⟨.active, stale⟩) := by
    have hmain : (s.setThread n (some ⟨.active, stale⟩)).mainEnqueued = true := h.mainEnqueued
    rw [enqueueThread, h.ids]
    dsimp only
    rw [if_pos hmain]
    refine ⟨_, rfl, h.current, rfl, hmain, ?_, rfl⟩
    change s.queuePriority1.enqueue ⟨n, 1⟩ = _
    rw [hqueue]
    rfl
  have hold : mid.threads node.thread = some ⟨.active, value⟩ := by
    rw [hthreads, Function.update_of_ne hne]
    exact hthread
  have hnew : mid.threads n = some ⟨.active, stale⟩ := by
    rw [hthreads, Function.update_self]
  obtain ⟨next, hyield, hrunning, hqueue', hthreads', hids', hmain'⟩ :=
    yield_second hfront hcurrent hold hnew
  refine ⟨next, ?_, hrunning, hids'.trans hids, hmain'.trans hmain, ⟨_, _, hqueue', rfl⟩, ?_⟩
  · rw [myPthreadCreate, henqueue]
    exact hyield
  · intro t ht
    rw [hthreads', hthreads]
    rcases Nat.lt_or_eq_of_le (Nat.le_of_lt_succ ht) with hold | rfl
    · rw [Function.update_of_ne (Nat.ne_of_lt hold)]
      exact h.active t hold
    · exact ⟨stale, Function.update_self _ _ _⟩

theorem initializeScheduler_create (garbage stale : Int) : ∃ next,
    (initializeScheduler garbage).myPthreadCreate stale = some (next, .swap 0 1) ∧
      next.current = some 1 ∧ next.threadIDS = 2 ∧ next.mainEnqueued = true ∧
      next.queuePriority1 = ⟨[⟨0, 1⟩, ⟨1, 1⟩], 2⟩ ∧ next.queuePriority2 = .empty ∧
      next.threads = Function.update (Function.update (fun _ => none) 0
        (some ⟨.active, garbage⟩)) 1 (some ⟨.active, stale⟩) :=
  ⟨_, rfl, rfl, rfl, rfl, rfl, rfl, rfl⟩

theorem fronted_main (garbage stale : Int) : ∃ mid next,
    (initializeScheduler garbage).myPthreadCreate stale = some (mid, .swap 0 1) ∧
      mid.current = some 1 ∧ mid.myPthreadYield = some (next, .swap 1 0) ∧ next.Fronted 0 2 := by
  obtain ⟨mid, hcreate, hcurrent, hids, hmain, hqueue, -, hmid⟩ :=
    initializeScheduler_create garbage stale
  have hthreads : ∀ t, t < 2 → ∃ value, mid.threads t = some ⟨.active, value⟩ := by
    intro t ht
    rw [hmid]
    rcases Nat.le_one_iff_eq_zero_or_eq_one.mp (Nat.le_of_lt_succ ht) with rfl | rfl
    · exact ⟨garbage, rfl⟩
    · exact ⟨stale, rfl⟩
  obtain ⟨value, hzero⟩ := hthreads 0 (by decide)
  obtain ⟨value', hone⟩ := hthreads 1 (by decide)
  obtain ⟨next, hyield, hrunning, hfront, hsame, hids', hmain'⟩ :=
    yield_second hqueue hcurrent hone hzero
  refine ⟨mid, next, hcreate, hcurrent, hyield, hrunning, hids'.trans hids, hmain'.trans hmain,
    ⟨_, _, hfront, rfl⟩, ?_⟩
  rw [hsame]
  exact hthreads

end RutgersOS.Assignment2.Scheduler

namespace RutgersOS.Assignment2.Paging

open RutgersOS.Memory RutgersOS.Pthread

theorem freeFrames_mark {s next : Paging} {k : Nat} (hk : k ∈ s.freeFrames)
    (h : next.masterTable = Function.update s.masterTable k true) :
    next.freeFrames.card + 1 = s.freeFrames.card := by
  have herase : next.freeFrames = s.freeFrames.erase k := by
    ext frame
    rw [Finset.mem_erase, mem_freeFrames, mem_freeFrames, h]
    rcases Classical.em (frame = k) with rfl | hne
    · rw [Function.update_self]
      exact iff_of_false (fun hin => Bool.noConfusion hin.2) fun hin => hin.1 rfl
    · rw [Function.update_of_ne hne]
      exact (and_iff_right hne).symm
  rw [herase]
  exact Finset.card_erase_add_one hk

theorem nextFreePage_mem {s : Paging} {frame : Nat} (h : s.nextFreePage = some frame) :
    frame ∈ s.freeFrames := by
  obtain ⟨hlt, hfree, -⟩ := nextFreePage_spec h
  exact mem_freeFrames.mpr ⟨hlt, hfree⟩

theorem landing_length (n : Nat) : ∀ {s : Paging}, n ≤ s.freeFrames.card →
    (landing s.masterTable n).length = n := by
  induction n with
  | zero => exact fun _ => rfl
  | succ n ih =>
      intro s h
      obtain ⟨frame, hframe⟩ := nextFreePage_of_free (Nat.lt_of_lt_of_le (Nat.succ_pos n) h)
      have hless : (s.mark frame true).freeFrames.card + 1 = s.freeFrames.card :=
        freeFrames_mark (nextFreePage_mem hframe) rfl
      have hrest := ih (s := s.mark frame true) (by omega)
      rw [landing_succ hframe, List.length_cons]
      exact congrArg (· + 1) hrest

/-- A page takes one frame, wherever the page that gives way for it goes. -/
theorem Gained.freeFrames {quiet : Prop} {s next : Paging} {c f : Nat}
    (h : Gained quiet s next c f) : next.freeFrames.card + 1 = s.freeFrames.card := by
  obtain ⟨a, hmaster, hcase⟩ := h.marks
  have ha : a ∈ s.freeFrames := by
    rcases hcase with ⟨rfl, hunused⟩ | ⟨-, hnext⟩
    · exact mem_freeFrames.mpr ⟨page_lt_total h.lt, hunused⟩
    · exact nextFreePage_mem hnext
  exact freeFrames_mark ha hmaster

def usedFrames (s : Paging) : Finset Nat :=
  (Finset.range totalPages).filter fun frame => ¬ s.masterTable frame = false

theorem mem_usedFrames {s : Paging} {frame : Nat} :
    frame ∈ s.usedFrames ↔ frame < totalPages ∧ s.masterTable frame = true := by
  rw [usedFrames, Finset.mem_filter, Finset.mem_range, Bool.not_eq_false]

theorem freeFrames_add_used (s : Paging) :
    s.freeFrames.card + s.usedFrames.card = totalPages := by
  rw [freeFrames, usedFrames, Finset.card_filter_add_card_filter_not, Finset.card_range]

theorem usedFrames_card_le {s next : Paging} (howned : s.Owned) (howned' : next.Owned)
    (hranged : next.Ranged)
    (hmapped : ∀ key, s.place key ≠ none → next.place key ≠ none) :
    s.usedFrames.card ≤ next.usedFrames.card := by
  apply Finset.card_le_card_of_forall_subsingleton fun frame frame' =>
    ∃ key, s.place key = some frame ∧ next.place key = some frame'
  · intro frame hframe
    obtain ⟨key, hkey⟩ := exists_of_not_vacant
      (((howned.framed.marks frame).mp (mem_usedFrames.mp hframe).2).resolve_right id)
    obtain ⟨frame', hkey'⟩ :=
      Option.ne_none_iff_exists'.mp (hmapped key (by rw [hkey]; nofun))
    have hused := howned'.framed.used_of_place hkey'
    exact ⟨frame', mem_usedFrames.mpr ⟨hranged key frame' hkey', hused⟩, key, hkey, hkey'⟩
  · rintro frame' - first ⟨-, key, hfirst, hkey⟩ second ⟨-, key', hsecond, hkey'⟩
    obtain rfl := howned'.framed.separate _ _ frame' hkey hkey'
    exact Option.some.inj (hfirst.symm.trans hsecond)

theorem freeFrames_card_eq {s next : Paging} (howned : s.Owned) (howned' : next.Owned)
    (hranged : s.Ranged) (hranged' : next.Ranged)
    (hmapped : ∀ key, next.place key ≠ none ↔ s.place key ≠ none) :
    next.freeFrames.card = s.freeFrames.card := by
  have hle := usedFrames_card_le howned howned' hranged' fun key => (hmapped key).mpr
  have hge := usedFrames_card_le howned' howned hranged fun key => (hmapped key).mp
  have hsum := s.freeFrames_add_used
  have hsum' := next.freeFrames_add_used
  omega

structure HandedOver (s next : Paging) (scheduler : Scheduler) : Prop where
  scheduler : next.scheduler = scheduler
  fileOpen : next.fileOpen = s.fileOpen
  mapped : ∀ key, next.place key ≠ none ↔ s.place key ≠ none
  free : next.freeFrames.card = s.freeFrames.card

theorem yield_hands_over {s : Paging} {scheduler : Scheduler} {switch : Switch}
    (hpending : s.scheduler.Pending) (htabled : s.Tabled) (howned : s.Owned)
    (hsafe : s.YieldSafe) (hyield : s.scheduler.myPthreadYield = some (scheduler, switch)) :
    ∃ next, s.myPthreadYield = some next ∧ HandedOver s next scheduler := by
  obtain ⟨next, hnext, hyielded⟩ := yield_spec hpending htabled howned hsafe
  have hmapped := yield_mapped_iff hpending htabled hnext
  obtain ⟨⟨other, switch'⟩, hother, hpages⟩ := Option.bind_eq_some_iff.mp hnext
  obtain ⟨rfl, rfl⟩ := Prod.mk.inj (Option.some.inj (hyield.symm.trans hother))
  exact ⟨next, hnext, (switchPages_rewrites hpages).scheduler, hyielded.fileOpen, hmapped,
    freeFrames_card_eq howned hyielded.owned htabled.ranged hyielded.tabled.ranged hmapped⟩

def Untouched (s : Paging) (t : Nat) : Prop :=
  ∀ q, s.place (t, q) ≠ none ↔ q = 0 ∨ q = lastPage

theorem HandedOver.untouched {s next : Paging} {scheduler : Scheduler} {t : Nat}
    (h : HandedOver s next scheduler) (hs : s.Untouched t) : next.Untouched t := by
  intro q
  rw [h.mapped]
  exact hs q

theorem SafeRun.handOver {s : Paging} {scheduler : Scheduler} {c u : Nat} (h : SafeRun s)
    (hcurrent : s.scheduler.current = some c)
    (hyield : s.scheduler.myPthreadYield = some (scheduler, .swap c u))
    (hc : s.Untouched c) (hu : s.Untouched u) (hfree : 2 ≤ s.freeFrames.card) :
    ∃ next, s.step .yield = some next ∧ SafeRun next ∧ HandedOver s next scheduler := by
  obtain ⟨htabled, hsteady⟩ := h.reachable.tabled
  have hsafe : s.YieldSafe := by
    refine handover_safe hsteady.pending htabled h.owned hcurrent ?_ (.new hc) Nat.zero_lt_one
      hu (landing_length 2 hfree)
    intro other switch hother
    exact (Prod.mk.inj (Option.some.inj (hother.symm.trans hyield))).2
  obtain ⟨next, hnext, hhanded⟩ :=
    yield_hands_over hsteady.pending htabled h.owned hsafe hyield
  exact ⟨next, hnext, .step .yield h hcurrent trivial hsafe hnext, hhanded⟩

theorem exists_admitted {s : Paging} (htabled : s.Tabled) (stale : Int)
    (beside beside' : BitVec 32) : ∃ table, s.Admitted (.create stale table beside beside') := by
  refine ⟨(Finset.range s.scheduler.threadIDS).sup (fun t => (s.tableOf t).getD 0) +
    memoryPages, fun t other hother => Or.inr ?_⟩
  have hle := Finset.le_sup (f := fun t => (s.tableOf t).getD 0)
    (Finset.mem_range.mpr (htabled.lt hother))
  rw [hother, Option.getD_some] at hle
  omega

theorem createTable_returns {s : Paging} {first last : Nat}
    (hfirst : s.nextFreePage = some first)
    (hlast : nextFree (Function.update s.masterTable first true) 0 totalPages = some last)
    (table : Nat) (beside beside' : BitVec 32) :
    ∃ next, s.createTable table beside beside' = some next := by
  have hlast' : Paging.nextFreePage
      ((((s.setCell table first).mark first true).protect first true).createPageHeader
        first beside) = some last := by
    rw [nextFreePage, (createPageHeader_same _ _ _).2.1]
    exact hlast
  exact ⟨_, Option.bind_eq_some_iff.mpr
    ⟨first, hfirst, Option.bind_eq_some_iff.mpr ⟨last, hlast', rfl⟩⟩⟩

theorem startThread_returns {s : Paging} {scheduler : Scheduler} {stale : Int}
    (henqueue : s.scheduler.enqueueThread stale = some scheduler)
    (hroom : s.scheduler.threadIDS < maxThreads) (hfree : 2 ≤ s.freeFrames.card) (table : Nat)
    (beside beside' : BitVec 32) :
    ∃ next, s.startThread stale table beside beside' = some next := by
  obtain ⟨first, hfirst⟩ := nextFreePage_of_free (by omega : 0 < s.freeFrames.card)
  have hless : (s.mark first true).freeFrames.card + 1 = s.freeFrames.card :=
    freeFrames_mark (nextFreePage_mem hfirst) rfl
  obtain ⟨last, hlast⟩ :=
    nextFreePage_of_free (by omega : 0 < (s.mark first true).freeFrames.card)
  obtain ⟨next, hnext⟩ := createTable_returns
    (s := { s with
      scheduler := scheduler
      pageTables := Function.update s.pageTables s.scheduler.threadIDS (some table) })
    hfirst hlast table beside beside'
  refine ⟨next, Option.bind_eq_some_iff.mpr ⟨scheduler, henqueue, ?_⟩⟩
  rw [if_pos hroom]
  exact hnext

structure Created (s next : Paging) (scheduler : Scheduler) : Prop where
  run : SafeRun next
  scheduler : next.scheduler = scheduler
  fileOpen : next.fileOpen = s.fileOpen
  new : next.Untouched s.scheduler.threadIDS
  old : ∀ t q, t ≠ s.scheduler.threadIDS →
    (next.place (t, q) ≠ none ↔ s.place (t, q) ≠ none)
  free : next.freeFrames.card + 2 = s.freeFrames.card

theorem SafeRun.createAt {s : Paging} {scheduler : Scheduler} {c table stop : Nat}
    (h : SafeRun s) (hcurrent : s.scheduler.current = some c)
    (hcreate : s.scheduler.myPthreadCreate 0 =
      some (scheduler, .swap c s.scheduler.threadIDS))
    (hroom : s.scheduler.threadIDS < maxThreads) (hends : s.EndsAt c stop)
    (hpositive : 0 < stop) (hfree : stop + 3 ≤ s.freeFrames.card)
    (hadmitted : s.Admitted (.create 0 table 0 0)) :
    ∃ next, s.step (.create 0 table 0 0) = some next ∧ Created s next scheduler := by
  obtain ⟨htabled, hsteady⟩ := h.reachable.tabled
  obtain ⟨enqueued, henqueue, hyield⟩ := Option.bind_eq_some_iff.mp hcreate
  obtain ⟨mid, hmid⟩ := startThread_returns henqueue hroom (by omega) table 0 0
  have hsafe := create_safe hsteady htabled h.owned hcurrent
    (fun other switch hother =>
      (Prod.mk.inj (Option.some.inj (hother.symm.trans hcreate))).2)
    hends hpositive (landing_length (stop + 3) hfree) hadmitted
  obtain ⟨first, last, hstarted⟩ := startThread_spec hmid
  have hpending := (hstarted.scheduler hsteady hcurrent).1
  have htabled' := hstarted.tabled hsteady hcurrent hadmitted htabled
  have howned' := hstarted.owned hsteady hcurrent htabled h.owned hadmitted
  obtain rfl := Option.some.inj (hstarted.enqueued.symm.trans henqueue)
  obtain ⟨next, hnext, hhanded⟩ :=
    yield_hands_over hpending htabled' howned' (hsafe mid hmid) hyield
  have hstep : s.step (.create 0 table 0 0) = some next :=
    Option.bind_eq_some_iff.mpr ⟨mid, hmid, hnext⟩
  have hless : (s.mark first true).freeFrames.card + 1 = s.freeFrames.card :=
    freeFrames_mark (nextFreePage_mem hstarted.firstFree) rfl
  have hlast : last ∈ (s.mark first true).freeFrames := nextFreePage_mem hstarted.lastFree
  have hless' := freeFrames_mark hlast hstarted.masterTable
  refine ⟨next, hstep,
    { run := .step _ h hcurrent hadmitted hsafe hstep
      scheduler := hhanded.scheduler
      fileOpen := hhanded.fileOpen.trans hstarted.fileOpen
      new := ?_
      old := ?_
      free := ?_ }⟩
  · intro q
    rw [hhanded.mapped]
    exact hstarted.new_place hsteady hcurrent hadmitted q
  · intro t q hne
    rw [hhanded.mapped, hstarted.place hsteady hcurrent hadmitted, if_neg hne]
  · rw [hhanded.free]
    omega

theorem SafeRun.create {s : Paging} {scheduler : Scheduler} {c stop : Nat} (h : SafeRun s)
    (hcurrent : s.scheduler.current = some c)
    (hcreate : s.scheduler.myPthreadCreate 0 =
      some (scheduler, .swap c s.scheduler.threadIDS))
    (hroom : s.scheduler.threadIDS < maxThreads) (hends : s.EndsAt c stop)
    (hpositive : 0 < stop) (hfree : stop + 3 ≤ s.freeFrames.card) :
    ∃ next, Created s next scheduler := by
  obtain ⟨table, hadmitted⟩ := exists_admitted h.reachable.tabled.1 0 0 0
  obtain ⟨next, -, hcreated⟩ :=
    h.createAt hcurrent hcreate hroom hends hpositive hfree hadmitted
  exact ⟨next, hcreated⟩

theorem mapPage_returns {s : Paging} {i : Nat} (htabled : s.Tabled) (howned : s.Owned)
    (hroom : s.scheduler.threadIDS < maxThreads) (hexists : s.nextFreePage ≠ none)
    (hstale : s.StaleFree i) (hi : i < memoryPages) (table : Nat) :
    ∃ next, s.mapPage table i = some next := by
  rw [mapPage, if_pos hi]
  split
  · exact ⟨s, rfl⟩
  · split
    · obtain ⟨mid, hmid, -⟩ := evict_clears htabled.apart howned.framed hi htabled.slots 0
        hroom (fun _ _ => htabled.lt) hstale hexists
      rw [hmid]
      exact ⟨_, rfl⟩
    · exact ⟨_, rfl⟩

structure Filling (s : Paging) (c n i free : Nat) : Prop where
  run : SafeRun s
  fronted : s.scheduler.Fronted c n
  lt : c < n
  room : n < maxThreads
  fileOpen : s.fileOpen = true
  pages : ∀ q, s.place (c, q) ≠ none ↔ q < i ∨ q = lastPage
  free : s.freeFrames.card = free

namespace Filling

variable {s : Paging} {c n i free : Nat}

theorem endsAt (h : Filling s c n i free) (hhigh : i < lastPage) : s.EndsAt c i := by
  refine ⟨fun k hk => (h.pages k).mpr (Or.inl hk), ?_, Nat.lt_trans hhigh lastPage_lt⟩
  refine Classical.not_not.mp fun hmapped => ?_
  have hcases := (h.pages i).mp hmapped
  omega

theorem staleFree (h : Filling s c n i free) (frame : Nat) : s.StaleFree frame := by
  intro j table k hslot hk _
  have hlt : j < n := by
    apply Nat.not_le.mp
    intro hbeyond
    rw [h.run.reachable.tabled.1.beyond j (h.fronted.ids ▸ hbeyond)] at hslot
    cases hslot
  obtain ⟨value, hactive⟩ := h.fronted.active j hlt
  have halive : s.scheduler.Alive j := by
    rw [Scheduler.Alive, hactive]
    exact Option.some_ne_none _
  exact ⟨j, table, k, (tableOf_eq halive).trans hslot, hk, rfl⟩

theorem map (h : Filling s c n i (free + 1)) (hhigh : i < lastPage) :
    ∃ next, Filling next c n (i + 1) free := by
  obtain ⟨htabled, hsteady⟩ := h.run.reachable.tabled
  have howned := h.run.owned
  have hcurrent := h.fronted.current
  obtain ⟨table, htable, -⟩ := htabled.table (hsteady.current_alive hcurrent)
  have hi : i < memoryPages := Nat.lt_trans hhigh lastPage_lt
  have hfree : 0 < s.freeFrames.card := by
    rw [h.free]
    exact Nat.succ_pos free
  obtain ⟨frame, hframe⟩ := nextFreePage_of_free hfree
  have hexists : s.nextFreePage ≠ none := by
    rw [hframe]
    nofun
  have hroom : s.scheduler.threadIDS < maxThreads := h.fronted.ids.symm ▸ h.room
  have habsent : s.place (c, i) = none := by
    refine Classical.not_not.mp fun hmapped => ?_
    have hcases := (h.pages i).mp hmapped
    omega
  have hsafe : s.MapSafe i := fun _ _ => ⟨hroom, hexists, h.staleFree i⟩
  obtain ⟨next, hmap⟩ :=
    mapPage_returns htabled howned hroom hexists (h.staleFree i) hi table
  have hstep : s.step (.mapPage i) = some next :=
    Option.bind_eq_some_iff.mpr ⟨c, hcurrent,
      Option.bind_eq_some_iff.mpr ⟨table, pageTables_of_tableOf htable, hmap⟩⟩
  have hready : s.Ready False c 1 i :=
    Or.inr ⟨habsent, Or.inr ⟨id, h.staleFree i⟩⟩
  have hroomy : s.Roomy 1 := ⟨hfree, fun _ _ => Or.inr h.fileOpen⟩
  have hgained : Gained False s next c i := by
    apply (mapPage_gained htabled howned hcurrent htable hi hready (Or.inr hroomy)
      hmap).resolve_left
    rintro ⟨-, hown, -⟩
    rw [habsent] at hown
    cases hown
  have hscheduler := hgained.rewrites.scheduler
  refine ⟨next,
    { run := .step (.mapPage i) h.run hcurrent trivial hsafe hstep
      fronted := hscheduler.symm ▸ h.fronted
      lt := h.lt
      room := h.room
      fileOpen := hgained.rewrites.fileOpen.trans h.fileOpen
      pages := ?_
      free := ?_ }⟩
  · intro q
    rcases Classical.em (q = i) with rfl | hne
    · rw [hgained.placed]
      exact iff_of_true nofun (Or.inl (Nat.lt_succ_self q))
    · rw [hgained.kept q hne, h.pages]
      omega
  · have hless := hgained.freeFrames
    rw [h.free] at hless
    exact Nat.succ.inj hless

theorem maps (k : Nat) : ∀ {s : Paging} {i : Nat}, Filling s c n i (free + k) →
    i + k ≤ lastPage → ∃ next, Filling next c n (i + k) free := by
  induction k with
  | zero => exact fun {s i} h _ => ⟨s, h⟩
  | succ k ih =>
      intro s i h hhigh
      obtain ⟨mid, hmid⟩ := h.map (by omega)
      obtain ⟨next, hnext⟩ := ih hmid (by omega)
      refine ⟨next, ?_⟩
      rw [Nat.add_right_comm] at hnext
      exact hnext

theorem create (h : Filling s c n i (free + 2)) (hpositive : 0 < i) (hhigh : i < lastPage)
    (henough : i + 1 ≤ free) (hroom : n + 1 < maxThreads) :
    ∃ next, Filling next n (n + 1) 1 free := by
  obtain ⟨scheduler, hcreate, hfronted⟩ := h.fronted.create h.lt 0
  have hids := h.fronted.ids
  obtain ⟨next, hcreated⟩ := h.run.create h.fronted.current (hids.symm ▸ hcreate)
    (hids.symm ▸ h.room) (h.endsAt hhigh) hpositive (by rw [h.free]; omega)
  have hnew := hcreated.new
  rw [hids] at hnew
  have hfree := hcreated.free
  rw [h.free] at hfree
  refine ⟨next,
    { run := hcreated.run
      fronted := hcreated.scheduler.symm ▸ hfronted
      lt := Nat.lt_succ_self n
      room := hroom
      fileOpen := hcreated.fileOpen.trans h.fileOpen
      pages := ?_
      free := by omega }⟩
  intro q
  rw [hnew]
  omega

end Filling

theorem mainAlone_pages : mainAlone.Untouched 0 := by
  intro q
  rw [mainAlone, initializeMemory_place]
  split
  · next hin => exact iff_of_true (Option.some_ne_none q) hin.2
  · next hout => exact iff_of_false (fun h => h rfl) fun hin => hout ⟨rfl, hin⟩

theorem usedFrames_card_le_keys {s : Paging} (howned : s.Owned) {keys : Finset (Nat × Nat)}
    (hkeys : ∀ key, s.place key ≠ none → key ∈ keys) : s.usedFrames.card ≤ keys.card := by
  have hsubset : s.usedFrames ⊆ keys.image fun key => (s.place key).getD 0 := by
    intro frame hframe
    obtain ⟨key, hkey⟩ := exists_of_not_vacant
      (((howned.framed.marks frame).mp (mem_usedFrames.mp hframe).2).resolve_right id)
    refine Finset.mem_image.mpr ⟨key, hkeys key ?_, ?_⟩
    · rw [hkey]
      exact Option.some_ne_none frame
    · rw [hkey, Option.getD_some]
  exact (Finset.card_le_card hsubset).trans Finset.card_image_le

theorem mainAlone_free : mainAlone.freeFrames.card = 5630 := by
  have hused : mainAlone.usedFrames = {0, lastPage} := by
    ext frame
    rw [mem_usedFrames, Finset.mem_insert, Finset.mem_singleton]
    have hmarked : mainAlone.masterTable frame = true ↔ frame = 0 ∨ frame = lastPage :=
      decide_eq_true_iff
    rw [hmarked, and_iff_right_iff_imp]
    rintro (rfl | rfl)
    · decide
    · decide
  have hpair : Finset.card {0, lastPage} = 2 := Finset.card_pair (by decide)
  have hsum := mainAlone.freeFrames_add_used
  rw [hused, hpair] at hsum
  have htotal : totalPages = 5632 := rfl
  omega

theorem filling_main : ∃ s, Filling s 0 2 1 5628 := by
  obtain ⟨scheduler, scheduler', hcreate, hrunning, hyield, hfronted⟩ :=
    Scheduler.fronted_main 0 0
  obtain ⟨s, hs⟩ := mainAlone_run.create (c := 0) rfl hcreate (by decide) mainAlone_endsAt
    Nat.zero_lt_one (by rw [mainAlone_free]; decide)
  have hmain : s.Untouched 0 := by
    intro q
    rw [hs.old 0 q Nat.zero_ne_one, mainAlone_pages]
  have hfree : s.freeFrames.card = 5628 := by
    have hless := hs.free
    rw [mainAlone_free] at hless
    omega
  obtain ⟨next, -, hrun, hhanded⟩ := hs.run.handOver (hs.scheduler.symm ▸ hrunning)
    (hs.scheduler.symm ▸ hyield) hs.new hmain (by omega)
  refine ⟨next,
    { run := hrun
      fronted := hhanded.scheduler.symm ▸ hfronted
      lt := by decide
      room := by decide
      fileOpen := hhanded.fileOpen.trans hs.fileOpen
      pages := ?_
      free := hhanded.free.trans hfree }⟩
  intro q
  rw [hhanded.untouched hmain q]
  omega

/-- Four threads use up all frames. -/
theorem filling_full : ∃ s c n i, Filling s c n i 0 ∧ i < lastPage := by
  obtain ⟨s₁, h₁⟩ := filling_main
  obtain ⟨s₂, h₂⟩ : ∃ s, Filling s 0 2 1301 4328 := h₁.maps 1300 (by decide)
  obtain ⟨s₃, h₃⟩ : ∃ s, Filling s 2 3 1 4326 :=
    h₂.create (by decide) (by decide) (by decide) (by decide)
  obtain ⟨s₄, h₄⟩ : ∃ s, Filling s 2 3 1301 3026 := h₃.maps 1300 (by decide)
  obtain ⟨s₅, h₅⟩ : ∃ s, Filling s 3 4 1 3024 :=
    h₄.create (by decide) (by decide) (by decide) (by decide)
  obtain ⟨s₆, h₆⟩ : ∃ s, Filling s 3 4 1501 1524 := h₅.maps 1500 (by decide)
  obtain ⟨s₇, h₇⟩ : ∃ s, Filling s 4 5 1 1522 :=
    h₆.create (by decide) (by decide) (by decide) (by decide)
  obtain ⟨s₈, h₈⟩ : ∃ s, Filling s 4 5 1523 0 := h₇.maps 1522 (by decide)
  exact ⟨s₈, 4, 5, 1523, h₈, by decide⟩

end RutgersOS.Assignment2.Paging
