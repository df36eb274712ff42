import RutgersOS.Assignment2.OsAccounts

namespace RutgersOS.Assignment2.Library

open RutgersOS.Memory RutgersOS.Pthread
open RutgersOS.Assignment2.Allocator (Area WellFormed tagCodec heaps_initializeMemory
  wholeArea usrSize extendedSize extendedSize_aligned extendedSize_minimal)

variable {contextSize : Nat}

theorem fresh_region (contextSize : Nat) (garbage : Bytes) (scheduler : Scheduler) :
    OsRegion contextSize ⟨scheduler, Allocator.initializeMemory garbage, fun _ => none⟩
      [wholeArea .os] where
  holdings :=
    { allocations := by
        refine ((heaps_initializeMemory garbage).allocations .os).congr ?_ fun _ _ _ => rfl
        rintro p size ⟨object, hobject, -⟩
        cases hobject
      held := by
        intro p room hp
        rw [allocatedAt_free rfl] at hp
        cases hp
      separate := by
        intro first second p hfirst
        cases hfirst }
  extent := rfl

/-- The first request is served by the first block. -/
theorem Served.first {size : Nat} {ptr : Int} {after : List Block}
    (h : Served [wholeArea .os] size ptr after) : ptr = 4 := by
  obtain ⟨left, block, right, placed, hfits, -, -, -, rfl⟩ := h.placed
  cases left with
  | nil => rfl
  | cons first rest =>
      have hlength := congrArg List.length hfits.eq
      simp at hlength

def mainObjects : List Object :=
  [.pageTables, .masterTable, .pageTable 0, .struct 0, .context 0]

theorem initialized {garbage : Bytes} {stale : Int} {s : Library}
    (h : initializeScheduler contextSize garbage stale = some s) :
    ∃ blocks, OsRegion contextSize s blocks ∧ s.holder .pageTables = some 4 ∧
      s.scheduler = .initializeScheduler stale ∧
      ∀ object, s.holder object ≠ none ↔ object ∈ mainObjects := by
  obtain ⟨mid, hclaim, hclaims⟩ := Option.bind_eq_some_iff.mp h
  obtain ⟨middle, ptr, hmid, hsched, hholder, hserved, -⟩ :=
    (fresh_region contextSize garbage (.initializeScheduler stale)).claim rfl hclaim
  obtain rfl := hserved.first
  have hrest : ∀ object ∈ [.masterTable, .pageTable 0, .struct 0, .context 0],
      mid.holder object = none := by
    intro object hobject
    rw [hholder, Function.update_of_ne]
    rintro rfl
    simp at hobject
  obtain ⟨blocks, hregion, hsched', hheld, -, hkeeps⟩ :=
    hmid.claimAll _ (by simp) hrest hclaims
  have hmain : ∀ object, s.holder object ≠ none ↔ object ∈ mainObjects := by
    intro object
    rw [hheld, hholder, mainObjects]
    rcases Classical.em (object = .pageTables) with rfl | hne
    · simp
    · simp [hne]
  refine ⟨blocks, hregion, ?_, hsched'.trans hsched, hmain⟩
  have hfirst : mid.holder .pageTables = some 4 := by
    rw [hholder, Function.update_self]
  rcases hkeeps.held .pageTables 4 (by simp) hfirst with hnone | ⟨hsome, -⟩
  · exact absurd hnone ((hmain _).mpr (by simp [mainObjects]))
  · exact hsome

theorem first_create {garbage : Bytes} {garbage' stale : Int} {s next : Library}
    (h : initializeScheduler contextSize garbage garbage' = some s)
    (hstep : s.step contextSize (.call (.create stale)) = some next) :
    ∃ blocks, Accounts contextSize [] next blocks := by
  obtain ⟨blocks, hregion, hfirst, hsched, hmain⟩ := initialized h
  have hc : s.scheduler.current = some 0 := by rw [hsched]; rfl
  have hfresh : s.scheduler.Steady := Or.inl ⟨garbage', Or.inl hsched⟩
  have hids : s.scheduler.threadIDS = 1 := by rw [hsched]; rfl
  obtain ⟨-, mid, scheduler, switch, hclaims, hcreate, rfl⟩ := create_cases hc hstep
  have hcreated : s.created 0 = [.struct 1, .context 1, .stack 1, .node 1, .node 0,
      .pageTable 1] := by
    rw [created, hsched]
    rfl
  rw [hcreated] at hclaims
  have hunheld : ∀ object ∈ [.struct 1, .context 1, .stack 1, .node 1, .node 0, .pageTable 1],
      s.holder object = none := by
    intro object hobject
    refine Classical.not_not.mp fun hheld => ?_
    have hmem := (hmain object).mp hheld
    simp only [mainObjects, List.mem_cons, List.not_mem_nil, or_false] at hobject hmem
    rcases hmem with rfl | rfl | rfl | rfl | rfl <;> simp at hobject
  obtain ⟨after, hafter, hsched', hheld, -, hkeeps⟩ :=
    hregion.claimAll _ (by simp) hunheld hclaims
  rw [hsched'] at hcreate
  have hcall : s.scheduler.step (.create stale) = some scheduler := by
    rw [Scheduler.step, hcreate]
    rfl
  obtain ⟨hthreads, hids'⟩ := hfresh.create_threads hc hcall
  obtain ⟨other, hother, hsettled⟩ := Scheduler.first_create_settled garbage' stale
  rw [← hsched] at hother
  obtain rfl := Option.some.inj (hcall.symm.trans hother)
  have halive : ∀ t, scheduler.Alive t ↔ t = 0 ∨ t = 1 := by
    intro t
    rw [Scheduler.Alive, hthreads, hids, hsched, or_comm]
    rcases Classical.em (t = 1) with rfl | hother
    · simp
    · rw [Function.update_of_ne hother, or_iff_right hother]
      change Function.update (fun _ => none) 0 (some (⟨.active, garbage'⟩ : Thread)) t ≠ none ↔ _
      rcases Classical.em (t = 0) with rfl | hzero
      · simp
      · simp [hzero]
  have hready : ∀ t, t ∈ scheduler.ready ↔ t = 0 ∨ t = 1 := by
    intro t
    rw [hsettled.consistent.ready_iff, hids', hids]
    simp only [List.not_mem_nil, not_false_eq_true, and_true]
    omega
  refine ⟨after, ?_⟩
  exact
    { region := ⟨hafter.holdings, hafter.extent⟩
      first := by
        rcases hkeeps.held .pageTables 4 (by simp) hfirst with hnone | ⟨hsome, -⟩
        · exact absurd hnone ((hheld _).mpr (Or.inr (by simp [hfirst])))
        · exact hsome
      settled := hsettled
      main := (halive 0).mpr (Or.inl rfl)
      below := by
        intro t ht
        rw [hids', hids]
        have hcases := (halive t).mp ht
        omega
      due := by
        intro object
        change mid.holder object ≠ none ↔ _
        rw [hheld, hmain]
        cases object with
        | pageTables => simp [Due, mainObjects]
        | masterTable => simp [Due, mainObjects]
        | pageTable t => simp [Due, mainObjects, halive, or_comm]
        | struct t => simp [Due, mainObjects, halive, or_comm]
        | context t => simp [Due, mainObjects, halive, or_comm]
        | stack t =>
            simp only [Due, mainObjects, halive, List.mem_cons, List.not_mem_nil, reduceCtorEq,
              Object.stack.injEq, false_or, or_false]
            omega
        | node t => simp [Due, mainObjects, hready, or_comm] }

/-- The run lemma. -/
theorem Reachable.accounts {s : Library} (h : Reachable contextSize s) :
    ∃ exited blocks, Accounts contextSize exited s blocks := by
  induction h with
  | create garbage garbage' stale hinit hstep =>
      obtain ⟨blocks, haccounts⟩ := first_create hinit hstep
      exact ⟨[], blocks, haccounts⟩
  | step event _ hallowed hstep ih =>
      obtain ⟨exited, blocks, haccounts⟩ := ih
      obtain ⟨exited', after, hnext, -⟩ := haccounts.step hallowed hstep
      exact ⟨exited', after, hnext⟩

theorem OsRegion.wellFormed {s : Library} {blocks : List Block}
    (h : OsRegion contextSize s blocks) : WellFormed s.memory .os blocks where
  tiles := h.holdings.allocations.region.tiles
  extent := h.extent
  epilogue := by
    have hafter := h.holdings.allocations.region.after
    rw [h.extent] at hafter
    exact hafter
  merged := h.holdings.allocations.merged

theorem claimAll_scheduler (objects : List Object) : ∀ {s next : Library},
    s.claimAll contextSize objects = some next → next.scheduler = s.scheduler := by
  induction objects with
  | nil =>
      intro s next h
      rw [← Option.some.inj h]
  | cons object objects ih =>
      intro s next h
      obtain ⟨mid, hclaim, hrest⟩ := Option.bind_eq_some_iff.mp h
      obtain ⟨⟨memory, answer⟩, -, hanswer⟩ := Option.bind_eq_some_iff.mp hclaim
      obtain ⟨ptr, -, hmid⟩ := Option.bind_eq_some_iff.mp hanswer
      rw [ih hrest, ← Option.some.inj hmid]

theorem create_step {s next : Library} {c : Nat} (hc : s.scheduler.current = some c)
    {stale : Int} (hstep : s.step contextSize (.call (.create stale)) = some next) :
    s.scheduler.step (.create stale) = some next.scheduler := by
  obtain ⟨-, mid, scheduler, switch, hclaims, hcreate, rfl⟩ := create_cases hc hstep
  have hsched : mid.scheduler = s.scheduler := claimAll_scheduler _ hclaims
  rw [hsched] at hcreate
  rw [Scheduler.step, hcreate]
  rfl

theorem step_scheduler {s next : Library} {event : Event} (hevent : ∀ op, event ≠ .call op)
    (hstep : s.step contextSize event = some next) : next.scheduler = s.scheduler := by
  cases event with
  | call op => exact absurd rfl (hevent op)
  | write object offset byte =>
      obtain ⟨ptr, -, hnext⟩ := Option.bind_eq_some_iff.mp hstep
      rw [← Option.some.inj hnext]
  | elsewhere memory => rw [← Option.some.inj hstep]

section Calls

variable {exited : List Nat} {s : Library} {blocks : List Block}
  (h : Accounts contextSize exited s blocks)

include h

theorem Accounts.exit_returns {c : Nat} (hc : s.scheduler.current = some c) (valuePtr : Int) :
    ∃ next, s.myPthreadExit valuePtr = some next ∧
      s.scheduler.step (.exit valuePtr) = some next.scheduler := by
  obtain ⟨node, hremoved, rfl⟩ := removedNode_eq h.settled hc
  have hmem := h.settled.current_mem _ hc
  obtain ⟨ptr, hptr⟩ := Option.ne_none_iff_exists'.mp ((h.due (.node node.thread)).mpr hmem)
  obtain ⟨mid, -, hdiscard, -⟩ := h.region.discard h.first (by simp) hptr
  obtain ⟨scheduler, switch, hexit, -⟩ := Scheduler.exit_settled h.settled hc valuePtr
  simp only [Library.myPthreadExit, Scheduler.step, hremoved, hdiscard, hexit,
    Option.bind_eq_bind, Option.bind_some]
  exact ⟨_, rfl, rfl⟩

theorem Accounts.yield_returns : ∃ next, s.myPthreadYield = some next ∧
    s.scheduler.step .yield = some next.scheduler := by
  obtain ⟨scheduler, switch, hyield, -⟩ :=
    Scheduler.yield_settled h.settled.consistent h.settled.current_mem
  simp only [Library.myPthreadYield, Scheduler.step, hyield, Option.bind_eq_bind,
    Option.bind_some]
  exact ⟨_, rfl, rfl⟩

theorem Accounts.join_returns {t : Nat} (hnonzero : t ≠ 0) (halive : s.scheduler.Alive t) :
    ∃ next, s.myPthreadJoin t = some next ∧
      s.scheduler.step (.join t) = some next.scheduler := by
  obtain ⟨thread, hthread⟩ := Option.ne_none_iff_exists'.mp halive
  obtain ⟨scheduler, switch, value, hjoin, -⟩ := Scheduler.join_settled h.settled hthread
  simp only [Library.myPthreadJoin, Scheduler.step, hjoin, Option.bind_eq_bind,
    Option.bind_some]
  cases value with
  | none => exact ⟨_, rfl, rfl⟩
  | some value =>
      have hregion : OsRegion contextSize { s with scheduler } blocks :=
        ⟨h.region.holdings, h.region.extent⟩
      obtain ⟨next, -, hnext, -, hsched, -⟩ :=
        hregion.discardAll (joinedObjects t) h.first (by simp [joinedObjects])
          (by simp [joinedObjects]) fun object hobject => by
            refine (h.due object).mpr ?_
            simp only [joinedObjects, List.mem_cons, List.not_mem_nil, or_false] at hobject
            rcases hobject with rfl | rfl | rfl | rfl
            · exact halive
            · exact ⟨hnonzero, halive⟩
            · exact halive
            · exact halive
      exact ⟨next, hnext, by rw [hsched]; rfl⟩

/-- `my_pthread_create` needs no more than its blocks and an id. -/
theorem Accounts.create_returns {c : Nat} (hc : s.scheduler.current = some c)
    (hroom : s.scheduler.threadIDS < maxThreads) {mid : Library}
    (hclaims : s.claimAll contextSize (threadObjects s.scheduler.threadIDS) = some mid)
    (stale : Int) : ∃ next, s.myPthreadCreate contextSize stale = some next ∧
      s.scheduler.step (.create stale) = some next.scheduler := by
  obtain ⟨-, -, hsched, -⟩ := h.region.claimAll _ (by simp [threadObjects]) h.unheld hclaims
  have hallowed : (Scheduler.Op.create stale).Allowed s.scheduler := trivial
  obtain ⟨scheduler, hstep, -⟩ := Scheduler.step_settled h.settled hc hallowed
  obtain ⟨⟨scheduler', switch⟩, hcreate, -⟩ := Option.map_eq_some_iff.mp hstep
  rw [← h.created_eq c] at hclaims
  simp only [Library.myPthreadCreate, Scheduler.step, hc, if_pos hroom, hclaims, hsched,
    hcreate, Option.bind_eq_bind, Option.bind_some]
  exact ⟨_, rfl, rfl⟩

end Calls

/-- Every allocated block of the OS region belongs to one object of a thread that still
needs it, each such object has a block that is large enough, and no call of the running
thread but `my_pthread_create` can fail. -/
theorem os_heap_accounted {s : Library} (h : Reachable contextSize s) :
    ∃ blocks, WellFormed s.memory .os blocks ∧
      (∀ object, s.holder object ≠ none ↔ Due s.scheduler object) ∧
      (∀ object p, s.holder object = some p → ∃ room,
        allocatedAt 0 blocks p = some room ∧ object.size contextSize + 8 ≤ room) ∧
      (∀ p room, allocatedAt 0 blocks p = some room →
        ∃! object, s.holder object = some p) ∧
      ∀ c, s.scheduler.current = some c →
        (∃ next, s.myPthreadYield = some next) ∧
          (∀ valuePtr, ∃ next, s.myPthreadExit valuePtr = some next) ∧
          ∀ t, t ≠ 0 → s.scheduler.Alive t → ∃ next, s.myPthreadJoin t = some next := by
  obtain ⟨exited, blocks, haccounts⟩ := h.accounts
  have hholdings := haccounts.region.holdings
  refine ⟨blocks, haccounts.region.wellFormed, haccounts.due, ?_, ?_, ?_⟩
  · exact fun object p hp => hholdings.room hp
  · intro p room hp
    obtain ⟨object, hobject⟩ := hholdings.held p room hp
    exact ⟨object, hobject, fun other hother =>
      hholdings.separate other object p hother hobject⟩
  · intro c hc
    refine ⟨haccounts.yield_returns.imp fun _ h => h.1, fun valuePtr => ?_, ?_⟩
    · exact (haccounts.exit_returns hc valuePtr).imp fun _ h => h.1
    · exact fun t hnonzero halive =>
        (haccounts.join_returns hnonzero halive).imp fun _ h => h.1

/-- When the same threads are unjoined and the same have not exited, the region has the
same blocks and the same pointers are held, whatever threads came and went, so what
`my_pthread_create` got before it gets again, as long as there are ids. -/
theorem os_heap_restored {first last : Library} (h : Reachable contextSize first)
    (hrun : Run contextSize first last)
    (halive : ∀ t, last.scheduler.Alive t ↔ first.scheduler.Alive t)
    (hready : ∀ t, t ∈ last.scheduler.ready ↔ t ∈ first.scheduler.ready) :
    last.holder = first.holder ∧
      (∃ blocks, WellFormed first.memory .os blocks ∧ WellFormed last.memory .os blocks) ∧
      ∀ stale c c', first.scheduler.current = some c → last.scheduler.current = some c' →
        last.scheduler.threadIDS < maxThreads →
          (∃ next, first.myPthreadCreate contextSize stale = some next) →
            ∃ next, last.myPthreadCreate contextSize stale = some next := by
  obtain ⟨exited, blocks, hfirst⟩ := h.accounts
  obtain ⟨exited', after, hlast, hkeeps, hids⟩ := hfirst.run hrun
  have hdue : ∀ object, last.holder object ≠ none ↔ first.holder object ≠ none := by
    intro object
    rw [hlast.due, hfirst.due]
    exact due_congr halive hready object
  have hkept : ∀ object p, first.holder object = some p → last.holder object = some p ∧
      allocatedAt 0 after p = allocatedAt 0 blocks p := by
    intro object p hp
    have hheld : first.holder object ≠ none := by
      rw [hp]
      exact Option.some_ne_none p
    rcases hkeeps.held object p (hfirst.known hheld) hp with hnone | hsome
    · exact absurd hnone ((hdue object).mpr hheld)
    · exact hsome
  have hholder : first.holder = last.holder := by
    funext object
    cases hp : first.holder object with
    | some p => exact (hkept object p hp).1.symm
    | none =>
        have hnone : last.holder object = none :=
          Classical.not_not.mp fun hheld => (hdue object).mp hheld hp
        exact hnone.symm
  obtain rfl := hfirst.region.holdings.eq_blocks hlast.region.holdings
    (hfirst.region.extent.trans hlast.region.extent.symm) hholder
    fun object p hp _ => (hkept object p hp).2
  refine ⟨hholder.symm, ⟨blocks, hfirst.region.wellFormed, hlast.region.wellFormed⟩, ?_⟩
  rintro stale c c' hc hc' hroom ⟨next, hnext⟩
  obtain ⟨-, mid, _, _, hclaims, -⟩ := create_cases hc hnext
  rw [hfirst.created_eq] at hclaims
  obtain ⟨_, -, -, -, hserved, -⟩ :=
    hfirst.region.claimAll _ (by simp [threadObjects]) hfirst.unheld hclaims
  obtain ⟨mid', hclaims'⟩ := hlast.region.claimAll_served
    (threadObjects last.scheduler.threadIDS) (by simp [threadObjects]) hlast.unheld hserved
  exact (hlast.create_returns hc' hroom hclaims' stale).imp fun _ h => h.1

/-- All blocks are taken but the last. -/
def Tail (blocks : List Block) (room : Nat) : Prop :=
  ∃ used rest, blocks = used ++ [rest] ∧ (∀ block ∈ used, block.allocated = true) ∧
    rest.allocated = false ∧ rest.size = room

def extendedSizes : List Nat → Nat
  | [] => 0
  | size :: sizes => extendedSize size + extendedSizes sizes

structure Fitting (sizes : List Nat) (room : Nat) : Prop where
  served : ∀ size ∈ sizes, size ≠ 0 ∧ ¬ usrSize < size
  room : extendedSizes sizes + 12 ≤ room

theorem Tail.served {blocks : List Block} {room size : Nat} (h : Tail blocks room)
    (hsize : size ≠ 0) (hsmall : ¬ usrSize < size) (hroom : extendedSize size + 12 ≤ room) :
    ∃ ptr after, Served blocks size ptr after ∧ Tail after (room - extendedSize size) := by
  obtain ⟨used, rest, rfl, hused, hfree, rfl⟩ := h
  have hminimal := extendedSize_minimal hsize
  have halign := extendedSize_aligned size
  refine ⟨_, _, ⟨hsize, hsmall, used, rest, [], _, ?_, by omega,
    .split hminimal halign hroom, rfl, rfl⟩, ?_⟩
  · exact
      { eq := by simp
        free := hfree
        room := by omega
        lowest := fun block hblock => Or.inl (hused block hblock) }
  · refine ⟨used ++ [Block.front _ hminimal halign], Block.rest rest _ halign hroom,
      by simp, fun block hblock => ?_, rfl, rfl⟩
    rcases List.mem_append.mp hblock with hold | hnew
    · exact hused block hold
    · obtain rfl := List.mem_singleton.mp hnew
      rfl

theorem Tail.servedAll (sizes : List Nat) :
    ∀ {blocks : List Block} {room : Nat}, Tail blocks room → Fitting sizes room →
      ∃ after, ServedAll blocks sizes after ∧ Tail after (room - extendedSizes sizes) := by
  induction sizes with
  | nil => exact fun h _ => ⟨_, rfl, h⟩
  | cons size sizes ih =>
      intro blocks room h hfitting
      have hroom := hfitting.room
      rw [extendedSizes] at hroom ⊢
      obtain ⟨hsize, hsmall⟩ := hfitting.served size List.mem_cons_self
      obtain ⟨ptr, middle, hserved, hmiddle⟩ := h.served hsize hsmall (by omega)
      obtain ⟨after, hserveds, hafter⟩ := ih hmiddle
        ⟨fun other hother => hfitting.served other (List.mem_cons_of_mem _ hother), by omega⟩
      exact ⟨after, ⟨ptr, middle, hserved, hserveds⟩, by rwa [← Nat.sub_sub]⟩

theorem ServedAll.unique (sizes : List Nat) :
    ∀ {blocks after after' : List Block}, ServedAll blocks sizes after →
      ServedAll blocks sizes after' → after = after' := by
  induction sizes with
  | nil => exact fun h h' => h.trans h'.symm
  | cons size sizes ih =>
      rintro blocks after after' ⟨ptr, middle, hserved, h⟩ ⟨ptr', middle', hserved', h'⟩
      obtain ⟨-, rfl⟩ := hserved.unique hserved'
      exact ih h h'

theorem OsRegion.claimAll_tail {s : Library} {blocks : List Block} {room : Nat}
    (h : OsRegion contextSize s blocks) (htail : Tail blocks room) {objects : List Object}
    (hnodup : objects.Nodup) (hunheld : ∀ object ∈ objects, s.holder object = none)
    (hfitting : Fitting (objects.map (Object.size contextSize)) room) :
    ∃ next after, s.claimAll contextSize objects = some next ∧
      OsRegion contextSize next after ∧ next.scheduler = s.scheduler ∧
      Tail after (room - extendedSizes (objects.map (Object.size contextSize))) := by
  obtain ⟨after, hserved, hafter⟩ := htail.servedAll _ hfitting
  obtain ⟨next, hclaims⟩ := h.claimAll_served objects hnodup hunheld hserved
  obtain ⟨after', hnext, hsched, -, hserved', -⟩ := h.claimAll objects hnodup hunheld hclaims
  obtain rfl := ServedAll.unique _ hserved hserved'
  exact ⟨next, after, hclaims, hnext, hsched, hafter⟩

theorem Accounts.create_tail {exited : List Nat} {s : Library} {blocks : List Block}
    {room c : Nat} (h : Accounts 968 exited s blocks) (htail : Tail blocks room)
    (hc : s.scheduler.current = some c) (hids : s.scheduler.threadIDS < maxThreads)
    (hroom : 14164 ≤ room) (stale : Int) :
    ∃ next exited' after, s.step 968 (.call (.create stale)) = some next ∧
      Accounts 968 exited' next after ∧ Tail after (room - 14152) ∧
        next.scheduler.threadIDS = s.scheduler.threadIDS + 1 ∧
          ∃ c', next.scheduler.current = some c' := by
  have hsizes : (threadObjects s.scheduler.threadIDS).map (Object.size 968) =
      [32, 968, 10000, 40, 3072] := rfl
  obtain ⟨mid, after, hclaims, hmid, -, hafter⟩ := h.region.claimAll_tail htail
    (by simp [threadObjects] : (threadObjects s.scheduler.threadIDS).Nodup) h.unheld (by
      rw [hsizes]
      exact ⟨by decide, hroom⟩)
  obtain ⟨next, hstep, hcall⟩ := h.create_returns hc hids hclaims stale
  obtain ⟨exited', after', hnext, -, -⟩ := h.create hc hstep
  obtain ⟨-, hcount, -, hready⟩ := create_alive h.settled hc hcall
  obtain ⟨-, mid', _, _, hclaims', -, rfl⟩ := create_cases hc hstep
  rw [h.created_eq] at hclaims'
  obtain rfl := Option.some.inj (hclaims.symm.trans hclaims')
  obtain rfl := hmid.holdings.allocations.region.unique
    hnext.region.holdings.allocations.region
  rw [hsizes] at hafter
  refine ⟨_, exited', after, hstep, hnext, hafter, hcount, ?_⟩
  rw [hnext.settled.running]
  exact ⟨_, List.head?_eq_some_head
    (List.ne_nil_of_mem ((hready s.scheduler.threadIDS).mpr (Or.inl rfl)))⟩

theorem first_create_returns : ∃ first s blocks,
    initializeScheduler 968 (fun _ => 7) 5 = some first ∧
      first.step 968 (.call (.create 7)) = some s ∧ Accounts 968 [] s blocks ∧
        Tail blocks 2072180 ∧
          (Scheduler.initializeScheduler 5).step (.create 7) = some s.scheduler := by
  have htail : Tail [wholeArea .os] 2097148 :=
    ⟨[], wholeArea .os, rfl, fun _ hblock => absurd hblock List.not_mem_nil, rfl, rfl⟩
  obtain ⟨s, middle, hinit, hregion, hsched, hmiddle⟩ :=
    (fresh_region 968 (fun _ => 7) (.initializeScheduler 5)).claimAll_tail htail
      (by decide : mainObjects.Nodup) (fun _ _ => rfl) ⟨by decide, by decide⟩
  obtain ⟨-, -, -, -, hmain⟩ := initialized hinit
  have hcreated : s.created 0 = [.struct 1, .context 1, .stack 1, .node 1, .node 0,
      .pageTable 1] := by
    rw [created, hsched]
    rfl
  have hunheld : ∀ object ∈ s.created 0, s.holder object = none := by
    intro object hobject
    refine Classical.not_not.mp fun hheld => ?_
    have hmem := (hmain object).mp hheld
    rw [hcreated] at hobject
    simp only [mainObjects, List.mem_cons, List.not_mem_nil, or_false] at hobject hmem
    rcases hmem with rfl | rfl | rfl | rfl | rfl <;> simp at hobject
  rw [hcreated] at hunheld
  obtain ⟨mid, after, hclaims, hmid, hsched', hafter⟩ :=
    hregion.claimAll_tail hmiddle (by decide) hunheld ⟨by decide, by decide⟩
  obtain ⟨⟨scheduler, switch⟩, hcreate⟩ : ∃ result,
      (Scheduler.initializeScheduler 5).myPthreadCreate 7 = some result := ⟨_, rfl⟩
  have hstep : s.step 968 (.call (.create 7)) = some { mid with scheduler } := by
    have hc : s.scheduler.current = some 0 := by
      rw [hsched]
      rfl
    have hcall : mid.scheduler.myPthreadCreate 7 = some (scheduler, switch) := by
      rw [hsched', hsched]
      exact hcreate
    have hroom : s.scheduler.threadIDS < maxThreads := by
      rw [hsched]
      decide
    simp only [Library.step, Library.myPthreadCreate, hc, if_pos hroom, hcreated, hclaims,
      hcall, Option.bind_eq_bind, Option.bind_some]
  obtain ⟨blocks, haccounts⟩ := first_create hinit hstep
  obtain rfl := hmid.holdings.allocations.region.unique
    haccounts.region.holdings.allocations.region
  refine ⟨s, _, after, hinit, hstep, haccounts, hafter, ?_⟩
  rw [Scheduler.step, hcreate]
  rfl

theorem os_heap_accounted_created : ∃ s next, Reachable 968 s ∧
    s.holder (.stack 1) ≠ none ∧ s.myPthreadExit 3 = some next := by
  obtain ⟨_, s, -, hinit, hstep, -, -, hsched⟩ := first_create_returns
  have hreach : Reachable 968 s := .create _ _ _ hinit hstep
  have hcurrent : some 1 = s.scheduler.current :=
    Option.some.inj (congrArg (Option.map Scheduler.current) hsched)
  have hthread : some (⟨.active, 7⟩ : Thread) = s.scheduler.threads 1 :=
    Option.some.inj (congrArg (Option.map fun r : Scheduler => r.threads 1) hsched)
  obtain ⟨blocks, -, hdue, -, -, hcalls⟩ := os_heap_accounted hreach
  obtain ⟨next, hexit⟩ := (hcalls 1 hcurrent.symm).2.1 3
  refine ⟨s, next, hreach, (hdue (.stack 1)).mpr ⟨by decide, ?_⟩, hexit⟩
  rw [Scheduler.Alive, ← hthread]
  exact Option.some_ne_none _

theorem then_step {before : Option Scheduler} {middle next : Scheduler} {op : Scheduler.Op}
    (h : before = some middle) (hstep : middle.step op = some next) :
    before.bind (Scheduler.step · op) = some next := by
  rw [h]
  exact hstep

/-- A second thread comes, exits and is joined. -/
theorem os_heap_restored_joined : ∃ first last : Library, Reachable 968 first ∧
    Run 968 first last ∧ first.scheduler.threadIDS < last.scheduler.threadIDS ∧
      last.holder = first.holder := by
  obtain ⟨_, first, blocks, hinit, hstep, haccounts, htail, hfirst⟩ := first_create_returns
  have hreach : Reachable 968 first := .create _ _ _ hinit hstep
  have hcFirst : some 1 = first.scheduler.current :=
    Option.some.inj (congrArg (Option.map Scheduler.current) hfirst)
  have hids : 2 = first.scheduler.threadIDS :=
    Option.some.inj (congrArg (Option.map Scheduler.threadIDS) hfirst)
  -- thread 2 is created, and the main thread runs
  obtain ⟨_, _, hclaims, -⟩ := haccounts.region.claimAll_tail htail
    (by simp [threadObjects] : (threadObjects first.scheduler.threadIDS).Nodup)
    haccounts.unheld (by
      rw [← hids]
      exact ⟨by decide, by decide⟩)
  obtain ⟨created, hcreate, hcall⟩ := haccounts.create_returns hcFirst.symm
    (hids ▸ by decide) hclaims 8
  have hcreated := then_step hfirst hcall
  have hcCreated : some 0 = created.scheduler.current :=
    Option.some.inj (congrArg (Option.map Scheduler.current) hcreated)
  have hthreadsCreated := (haccounts.settled.steady.create_threads hcFirst.symm hcall).1
  have hrunCreated : Run 968 first created :=
    Run.start.step (.call (.create 8)) ⟨1, hcFirst.symm⟩ hcreate
  obtain ⟨_, _, hbooks, -⟩ := haccounts.run hrunCreated
  -- it yields to thread 2
  obtain ⟨yielded, hyield, hcall⟩ := hbooks.yield_returns
  have hyielded := then_step hcreated hcall
  have hcYielded : some 2 = yielded.scheduler.current :=
    Option.some.inj (congrArg (Option.map Scheduler.current) hyielded)
  obtain ⟨⟨_, _⟩, hturn, rfl⟩ := Option.map_eq_some_iff.mp hcall
  have hthreadsYielded := (hbooks.settled.yield_threads hturn).1
  have hrunYielded := hrunCreated.step (.call .yield) ⟨0, hcCreated.symm⟩ hyield
  obtain ⟨_, _, hbooks, -⟩ := haccounts.run hrunYielded
  -- which exits, so that thread 1 runs and joins it
  obtain ⟨exited, hexit, hcall⟩ := hbooks.exit_returns hcYielded.symm 3
  have hexited := then_step hyielded hcall
  have hcExited : some 1 = exited.scheduler.current :=
    Option.some.inj (congrArg (Option.map Scheduler.current) hexited)
  have hcompleted : some (⟨.completed, 3⟩ : Thread) = exited.scheduler.threads 2 :=
    Option.some.inj (congrArg (Option.map fun r : Scheduler => r.threads 2) hexited)
  have hthreadsExited := (hbooks.settled.exit_threads hcYielded.symm hcall).1
  have hrunExited := hrunYielded.step (.call (.exit 3)) ⟨2, hcYielded.symm⟩ hexit
  obtain ⟨_, _, hbooks, -⟩ := haccounts.run hrunExited
  obtain ⟨last, hjoin, hcall⟩ := hbooks.join_returns (by decide : 2 ≠ 0) <| by
    rw [Scheduler.Alive, ← hcompleted]
    exact Option.some_ne_none _
  have hjoined := then_step hexited hcall
  have hthreadsJoined : last.scheduler.threads =
      Function.update exited.scheduler.threads 2 none := by
    simp [Scheduler.step, Scheduler.myPthreadJoin, ← hcompleted] at hcall
    rw [← hcall]
    rfl
  have hrun := hrunExited.step (.call (.join 2)) ⟨1, hcExited.symm⟩ hjoin
  have hready : first.scheduler.ready = last.scheduler.ready :=
    (Option.some.inj (congrArg (Option.map Scheduler.ready) hfirst)).symm.trans
      (Option.some.inj (congrArg (Option.map Scheduler.ready) hjoined) : [1, 0] = _)
  have hthreads : ∀ t, last.scheduler.threads t = first.scheduler.threads t := by
    obtain ⟨_, -, hthreadsExited⟩ := hthreadsExited
    intro t
    rcases Classical.em (t = 2) with rfl | hne
    · have hfresh : none = first.scheduler.threads 2 :=
        Option.some.inj (congrArg (Option.map fun r : Scheduler => r.threads 2) hfirst)
      rw [hthreadsJoined, Function.update_self, hfresh]
    · rw [hthreadsJoined, Function.update_of_ne hne, hthreadsExited, Function.update_of_ne hne]
      refine (congrFun hthreadsYielded t).trans ?_
      rw [hthreadsCreated, ← hids, Function.update_of_ne hne]
  refine ⟨first, last, hreach, hrun, ?_, ?_⟩
  · rw [← hids]
    exact (Option.some.inj (congrArg (Option.map Scheduler.threadIDS) hjoined) : 3 = _) ▸
      by decide
  · refine (os_heap_restored hreach hrun (fun t => ?_) fun t => ?_).1
    · rw [Scheduler.Alive, Scheduler.Alive, hthreads]
    · rw [hready]

end RutgersOS.Assignment2.Library
