import RutgersOS.Assignment2.OsHeap

namespace RutgersOS.Assignment2.Library

open RutgersOS.Memory RutgersOS.Pthread
open RutgersOS.Assignment2.Allocator (Area areaOf bounds hdrSize osSize usrSize tagCodec
  mydeallocate mydeallocateWithin myallocate myallocate_cases extendedSize le_extendedSize Fits
  whichMemory_eq asInt asInt_eq)
open RutgersOS.Memory.BoundaryTag (Bounded.header_inside Bounded.release_eq
  Bounded.blockFlag_eq)

structure OsRegion (contextSize : Nat) (s : Library) (blocks : List Block) : Prop where
  holdings : Holdings tagCodec s.memory 0 s.holder (Object.size contextSize) blocks
  extent : total blocks = Area.os.extent

structure Keeps (known : Object → Prop) (s : Library) (blocks : List Block)
    (next : Library) (after : List Block) : Prop where
  held : ∀ object p, known object → s.holder object = some p →
    next.holder object = none ∨
      next.holder object = some p ∧ allocatedAt 0 after p = allocatedAt 0 blocks p
  gone : ∀ object, known object → s.holder object = none → next.holder object = none

namespace Keeps

variable {known : Object → Prop} {s next last : Library} {blocks after final : List Block}

theorem of_holder (h : next.holder = s.holder) : Keeps known s blocks next blocks where
  held object _ _ hp := Or.inr ⟨(congrFun h object).trans hp, rfl⟩
  gone object _ hp := (congrFun h object).trans hp

theorem trans (h : Keeps known s blocks next after) (h' : Keeps known next after last final) :
    Keeps known s blocks last final where
  held object p hknown hp := by
    rcases h.held object p hknown hp with hnone | ⟨hsome, hroom⟩
    · exact Or.inl (h'.gone object hknown hnone)
    · rcases h'.held object p hknown hsome with hnone | ⟨hsome', hroom'⟩
      · exact Or.inl hnone
      · exact Or.inr ⟨hsome', hroom'.trans hroom⟩
  gone object hknown hp := h'.gone object hknown (h.gone object hknown hp)

theorem mono {known' : Object → Prop} (h : Keeps known s blocks next after)
    (hknown : ∀ object, known' object → known object) : Keeps known' s blocks next after where
  held object p ho := h.held object p (hknown object ho)
  gone object ho := h.gone object (hknown object ho)

end Keeps

section Region

variable {contextSize : Nat} {s next : Library} {blocks : List Block} {object : Object}

structure Served (blocks : List Block) (size : Nat) (ptr : Int) (after : List Block) :
    Prop where
  nonzero : size ≠ 0
  small : ¬ usrSize < size
  placed : ∃ left block right placed, Fits blocks left block right size ∧
    extendedSize size < block.size ∧ Placement (extendedSize size) block placed ∧
      after = left ++ placed ++ right ∧ ptr = 0 + total left + 4

theorem Served.unique {size : Nat} {ptr ptr' : Int} {after after' : List Block}
    (h : Served blocks size ptr after) (h' : Served blocks size ptr' after') :
    ptr = ptr' ∧ after = after' := by
  obtain ⟨left, block, right, placed, hfits, -, hplaced, rfl, rfl⟩ := h.placed
  obtain ⟨left', block', right', placed', hfits', -, hplaced', rfl, rfl⟩ := h'.placed
  obtain ⟨rfl, rfl⟩ := hfits.unique hfits'
  obtain rfl : right = right' := List.append_cancel_left (hfits.eq.symm.trans hfits'.eq)
  obtain rfl : placed = placed' := by
    cases hplaced with
    | split hmin halign hroom =>
        cases hplaced' with
        | split => rfl
        | whole hfit htight => omega
    | whole hfit htight =>
        cases hplaced' with
        | split hmin halign hroom => omega
        | whole => rfl
  exact ⟨rfl, rfl⟩

theorem OsRegion.myallocate_served (h : OsRegion contextSize s blocks) {size : Nat} {ptr : Int}
    {memory : Bytes} (hanswer : myallocate s.memory size 69 = some (memory, some ptr)) :
    ∃ after, Served blocks size ptr after ∧ memory = paint tagCodec s.memory 0 after := by
  have hnull : ∀ memory, myallocate s.memory size 69 ≠ some (memory, none) := by
    intro memory' hnone
    rw [hnone] at hanswer
    cases hanswer
  have hsize : size ≠ 0 := fun hzero => hnull s.memory (by rw [myallocate, if_pos hzero])
  have hsmall : ¬ usrSize < size := fun hbig =>
    hnull s.memory (by rw [myallocate, if_neg hsize, if_pos hbig])
  have hregion : BoundaryTag.Region tagCodec s.memory (areaOf 69).base blocks :=
    h.holdings.allocations.region
  rcases myallocate_cases hregion h.extent hsize hsmall with
    ⟨-, hnone⟩ | ⟨left, block, right, hfits, ⟨-, hnone⟩ | ⟨hlarger, placed, hplaced, hsome⟩⟩
  · exact absurd hnone (hnull _)
  · exact absurd hnone (hnull _)
  rw [hanswer] at hsome
  obtain ⟨hmemory, hptr⟩ := Prod.mk.inj (Option.some.inj hsome)
  exact ⟨_, ⟨hsize, hsmall, left, block, right, placed, hfits, hlarger, hplaced, rfl,
    Option.some.inj hptr⟩, hmemory⟩

theorem OsRegion.served_myallocate (h : OsRegion contextSize s blocks) {size : Nat} {ptr : Int}
    {after : List Block} (hserved : Served blocks size ptr after) :
    ∃ memory, myallocate s.memory size 69 = some (memory, some ptr) := by
  obtain ⟨left, block, right, placed, hfits, hlarger, -, -, rfl⟩ := hserved.placed
  have hregion : BoundaryTag.Region tagCodec s.memory (areaOf 69).base blocks :=
    h.holdings.allocations.region
  rcases myallocate_cases hregion h.extent hserved.nonzero hserved.small with
    ⟨hfull, -⟩ | ⟨left', block', right', hfits', hcases⟩
  · exact absurd hfull hfits.not_full
  obtain ⟨rfl, rfl⟩ := hfits.unique hfits'
  rcases hcases with ⟨hexact, -⟩ | ⟨-, placed', -, hsome⟩
  · exact absurd hexact (Nat.ne_of_gt hlarger)
  · exact ⟨_, hsome⟩

theorem OsRegion.claim (h : OsRegion contextSize s blocks) (hunheld : s.holder object = none)
    (hclaim : s.claim contextSize object = some next) :
    ∃ after ptr, OsRegion contextSize next after ∧ next.scheduler = s.scheduler ∧
      next.holder = Function.update s.holder object (some ptr) ∧
      Served blocks (object.size contextSize) ptr after ∧
      Keeps (· ≠ object) s blocks next after := by
  obtain ⟨⟨memory, answer⟩, hanswer, hclaim⟩ := Option.bind_eq_some_iff.mp hclaim
  obtain ⟨ptr, rfl, hclaim⟩ := Option.bind_eq_some_iff.mp hclaim
  obtain rfl := Option.some.inj hclaim
  obtain ⟨after, hserved, rfl⟩ := h.myallocate_served hanswer
  obtain ⟨left, block, right, placed, hfits, -, hplaced, rfl, rfl⟩ := hserved.placed
  have hholdings := h.holdings
  have hextent := h.extent
  rw [hfits.eq] at hholdings hextent
  obtain ⟨hclaimed, hrooms⟩ :=
    hholdings.claim hunheld hfits.free hplaced (le_extendedSize _)
  refine ⟨_, _, ⟨hclaimed, ?_⟩, rfl, rfl, hserved, ?_⟩
  · rw [← hextent]
    simp only [total_append, hplaced.total_eq]
  · have hother : ∀ other, other ≠ object → Function.update s.holder object
        (some (0 + (total left : Int) + 4)) other = s.holder other :=
      fun other hne => Function.update_of_ne hne _ _
    refine ⟨fun other p hne hp => Or.inr ?_, fun other hne hp => (hother other hne).trans hp⟩
    have hkept := (hother other hne).trans hp
    refine ⟨hkept, ?_⟩
    rw [hfits.eq]
    exact hrooms other p hp hkept

def ServedAll : List Block → List Nat → List Block → Prop
  | blocks, [], after => after = blocks
  | blocks, size :: sizes, after =>
      ∃ ptr middle, Served blocks size ptr middle ∧ ServedAll middle sizes after

/-- The page tables lie in the first block, which is never given back. -/
theorem OsRegion.discard (h : OsRegion contextSize s blocks)
    (hfirst : s.holder .pageTables = some 4) (hne : object ≠ .pageTables) {ptr : Int}
    (hptr : s.holder object = some ptr) :
    ∃ next after, s.discard object = some next ∧ OsRegion contextSize next after ∧
      next.scheduler = s.scheduler ∧
      next.holder = Function.update s.holder object none ∧
      ∀ known, Keeps known s blocks next after := by
  have hholdings := h.holdings
  have hextent := h.extent
  obtain ⟨hregion, -, -⟩ := h.holdings.allocations
  obtain ⟨left, block, right, rfl, -, rfl⟩ :=
    hholdings.allocations.live_block ⟨object, hptr, rfl⟩
  have hnonempty : left ≠ [] := by
    rintro rfl
    exact hne (h.holdings.separate object .pageTables _ hptr hfirst)
  have hhigh : Area.os.base + total (left ++ block :: right) + 4 ≤ bounds.high := by
    rw [hextent]
    exact Area.os.inside.2
  have hheader : bounds.Inside (BoundaryTag.header (0 + total left + 4)) :=
    (Bounded.header_inside Area.os.inside.1 hhigh rfl).1
  have hrelease : BoundaryTag.Bounded.release tagCodec bounds s.memory (0 + total left + 4) =
      some (BoundaryTag.release tagCodec s.memory (0 + total left + 4)) :=
    Bounded.release_eq Area.os.inside.1 hhigh hregion rfl fun heq => absurd heq hnonempty
  have hle : total left + 12 ≤ Area.os.extent := by
    have hmin := block.minimal
    rw [← hextent]
    simp only [total_append, total_cons]
    omega
  have hos : Area.os.extent = 2097148 := rfl
  have hdeallocate : mydeallocate s.memory (some (0 + total left + 4)) 69 =
      some (BoundaryTag.release tagCodec s.memory (0 + total left + 4)) := by
    have hbase : Allocator.whichMemory 69 = 0 := rfl
    have hrelative : asInt (0 + total left + 4 - 0) = total left + 4 := by
      rw [asInt_eq (by omega) (by omega)]
      omega
    simp only [mydeallocate, mydeallocateWithin, hbase, hrelative]
    rw [if_neg (by unfold osSize usrSize hdrSize; omega), Bounded.blockFlag_eq hheader,
      hrelease]
    rfl
  obtain ⟨hreleased, hrooms⟩ := hholdings.release hptr
  let next : Library :=
    { s with
      memory := BoundaryTag.release tagCodec s.memory (0 + total left + 4)
      holder := Function.update s.holder object none }
  refine ⟨next, _, ?_, ⟨hreleased, ?_⟩, rfl, rfl, fun known => ⟨?_, ?_⟩⟩
  · simp only [Library.discard, hptr, hdeallocate, Option.bind_eq_bind, Option.bind_some]
    rfl
  · rw [← hextent]
    simp
  · intro other p _ hp
    rcases Classical.em (other = object) with rfl | hdiffers
    · exact Or.inl (Function.update_self _ _ _)
    · have hkept : Function.update s.holder object none other = some p :=
        (Function.update_of_ne hdiffers _ _).trans hp
      exact Or.inr ⟨hkept, hrooms other p hp hkept⟩
  · intro other _ hp
    rcases Classical.em (other = object) with rfl | hdiffers
    · exact Function.update_self _ _ _
    · exact (Function.update_of_ne hdiffers _ _).trans hp

theorem OsRegion.claimAll (objects : List Object) :
    ∀ {s : Library} {blocks : List Block}, OsRegion contextSize s blocks → objects.Nodup →
      (∀ object ∈ objects, s.holder object = none) →
        s.claimAll contextSize objects = some next →
          ∃ after, OsRegion contextSize next after ∧ next.scheduler = s.scheduler ∧
            (∀ object, next.holder object ≠ none ↔
              object ∈ objects ∨ s.holder object ≠ none) ∧
            ServedAll blocks (objects.map (Object.size contextSize)) after ∧
            Keeps (· ∉ objects) s blocks next after := by
  induction objects with
  | nil =>
      intro s blocks h _ _ hclaims
      obtain rfl := Option.some.inj hclaims
      exact ⟨blocks, h, rfl, fun object => by simp, rfl, .of_holder rfl⟩
  | cons first objects ih =>
      intro s blocks h hnodup hunheld hclaims
      obtain ⟨hfresh, hnodup⟩ := List.nodup_cons.mp hnodup
      obtain ⟨mid, hclaim, hclaims⟩ := Option.bind_eq_some_iff.mp hclaims
      obtain ⟨middle, ptr, hmid, hsched, hholder, hserved, hkeeps⟩ :=
        h.claim (hunheld first List.mem_cons_self) hclaim
      have hrest : ∀ object ∈ objects, mid.holder object = none := by
        intro object hobject
        have hne : object ≠ first := by
          rintro rfl
          exact hfresh hobject
        rw [hholder, Function.update_of_ne hne]
        exact hunheld object (List.mem_cons_of_mem _ hobject)
      obtain ⟨after, hnext, hsched', hheld, hserveds, hkeeps'⟩ := ih hmid hnodup hrest hclaims
      refine ⟨after, hnext, hsched'.trans hsched, fun object => ?_,
        ⟨ptr, middle, hserved, hserveds⟩, ?_⟩
      · rw [hheld, hholder, List.mem_cons]
        rcases Classical.em (object = first) with rfl | hne
        · simp
        · rw [Function.update_of_ne hne, or_assoc, or_iff_right hne]
      · refine (hkeeps.mono fun object hout heq => hout (heq ▸ List.mem_cons_self)).trans
          (hkeeps'.mono fun object hout hmem => hout (List.mem_cons_of_mem _ hmem))

/-- Requests of the same sizes are served where the blocks are the same. -/
theorem OsRegion.claimAll_served (objects : List Object) :
    ∀ {s : Library} {blocks after : List Block}, OsRegion contextSize s blocks →
      objects.Nodup → (∀ object ∈ objects, s.holder object = none) →
        ServedAll blocks (objects.map (Object.size contextSize)) after →
          ∃ next, s.claimAll contextSize objects = some next := by
  induction objects with
  | nil => exact fun _ _ _ _ => ⟨_, rfl⟩
  | cons first objects ih =>
      intro s blocks after h hnodup hunheld hserveds
      obtain ⟨hfresh, hnodup⟩ := List.nodup_cons.mp hnodup
      obtain ⟨ptr, middle, hserved, hserveds⟩ := hserveds
      obtain ⟨memory, hanswer⟩ := h.served_myallocate hserved
      obtain ⟨mid, hclaim⟩ : ∃ mid, s.claim contextSize first = some mid := by
        simp only [Library.claim, hanswer, Option.bind_eq_bind, Option.bind_some]
        exact ⟨_, rfl⟩
      obtain ⟨middle', ptr', hmid, -, hholder, hserved', -⟩ :=
        h.claim (hunheld first List.mem_cons_self) hclaim
      obtain ⟨-, rfl⟩ := hserved.unique hserved'
      have hrest : ∀ object ∈ objects, mid.holder object = none := by
        intro object hobject
        have hne : object ≠ first := by
          rintro rfl
          exact hfresh hobject
        rw [hholder, Function.update_of_ne hne]
        exact hunheld object (List.mem_cons_of_mem _ hobject)
      obtain ⟨next, hnext⟩ := ih hmid hnodup hrest hserveds
      refine ⟨next, ?_⟩
      rw [Library.claimAll, hclaim]
      exact hnext

theorem OsRegion.discardAll (objects : List Object) :
    ∀ {s : Library} {blocks : List Block}, OsRegion contextSize s blocks →
      s.holder .pageTables = some 4 → objects.Nodup → .pageTables ∉ objects →
        (∀ object ∈ objects, s.holder object ≠ none) →
          ∃ next after, s.discardAll objects = some next ∧
            OsRegion contextSize next after ∧ next.scheduler = s.scheduler ∧
            (∀ object, next.holder object ≠ none ↔
              object ∉ objects ∧ s.holder object ≠ none) ∧
            ∀ known, Keeps known s blocks next after := by
  induction objects with
  | nil =>
      intro s blocks h _ _ _ _
      exact ⟨s, blocks, rfl, h, rfl, fun object => by simp, fun known => .of_holder rfl⟩
  | cons first objects ih =>
      intro s blocks h htables hnodup hout hheld
      obtain ⟨hfresh, hnodup⟩ := List.nodup_cons.mp hnodup
      rw [List.mem_cons, not_or] at hout
      obtain ⟨ptr, hptr⟩ := Option.ne_none_iff_exists'.mp (hheld first List.mem_cons_self)
      obtain ⟨mid, middle, hdiscard, hmid, hsched, hholder, hkeeps⟩ :=
        h.discard htables (Ne.symm hout.1) hptr
      have hkept : ∀ object, object ≠ first → mid.holder object = s.holder object := by
        intro object hne
        rw [hholder, Function.update_of_ne hne]
      obtain ⟨next, after, hdiscards, hnext, hsched', hheld', hkeeps'⟩ :=
        ih hmid ((hkept _ hout.1).trans htables) hnodup hout.2 fun object hobject => by
          rw [hkept object fun heq => hfresh (heq ▸ hobject)]
          exact hheld object (List.mem_cons_of_mem _ hobject)
      refine ⟨next, after, ?_, hnext, hsched'.trans hsched, fun object => ?_,
        fun known => (hkeeps known).trans (hkeeps' known)⟩
      · rw [Library.discardAll, hdiscard]
        exact hdiscards
      · rw [hheld', List.mem_cons, not_or]
        rcases Classical.em (object = first) with rfl | hne
        · simp [hholder]
        · rw [hkept object hne, and_iff_right hne]

theorem held_of_discardAll (objects : List Object) :
    ∀ {s : Library}, s.discardAll objects = some next →
      ∀ object ∈ objects, s.holder object ≠ none := by
  induction objects with
  | nil => exact fun _ object hobject => absurd hobject List.not_mem_nil
  | cons first objects ih =>
      intro s hdiscards object hobject
      obtain ⟨mid, hdiscard, hdiscards⟩ := Option.bind_eq_some_iff.mp hdiscards
      obtain ⟨ptr, hptr, hdiscard⟩ := Option.bind_eq_some_iff.mp hdiscard
      obtain ⟨memory, -, hmid⟩ := Option.bind_eq_some_iff.mp hdiscard
      obtain rfl := Option.some.inj hmid
      rcases Classical.em (object = first) with rfl | hne
      · simp [hptr]
      · have hrest := ih hdiscards object ((List.mem_cons.mp hobject).resolve_left hne)
        change Function.update s.holder first none object ≠ none at hrest
        rwa [Function.update_of_ne hne] at hrest

end Region

/-- The objects of the threads that are not joined and the nodes of those that have not
exited.  The stack of the main thread is not from the OS region. -/
def Due (s : Scheduler) : Object → Prop
  | .pageTables => True
  | .masterTable => True
  | .pageTable t => s.Alive t
  | .struct t => s.Alive t
  | .context t => s.Alive t
  | .stack t => t ≠ 0 ∧ s.Alive t
  | .node t => t ∈ s.ready

structure Accounts (contextSize : Nat) (exited : List Nat) (s : Library)
    (blocks : List Block) : Prop where
  region : OsRegion contextSize s blocks
  first : s.holder .pageTables = some 4
  settled : Scheduler.Settled exited s.scheduler
  main : s.scheduler.Alive 0
  below : ∀ t, s.scheduler.Alive t → t < s.scheduler.threadIDS
  due : ∀ object, s.holder object ≠ none ↔ Due s.scheduler object

def Known (threadIDS : Nat) (object : Object) : Prop :=
  ∀ t, object.thread = some t → t < threadIDS

theorem Known.mono {threadIDS later : Nat} {object : Object} (h : Known threadIDS object)
    (hle : threadIDS ≤ later) : Known later object :=
  fun t ht => Nat.lt_of_lt_of_le (h t ht) hle

theorem due_congr {s next : Scheduler} (halive : ∀ t, next.Alive t ↔ s.Alive t)
    (hready : ∀ t, t ∈ next.ready ↔ t ∈ s.ready) (object : Object) :
    Due next object ↔ Due s object := by
  cases object with
  | pageTables => exact Iff.rfl
  | masterTable => exact Iff.rfl
  | pageTable t => exact halive t
  | struct t => exact halive t
  | context t => exact halive t
  | stack t => exact and_congr_right fun _ => halive t
  | node t => exact hready t

/-- `my_pthread_exit` gives back the node of its caller. -/
theorem removedNode_eq {exited : List Nat} {s : Scheduler} (h : Scheduler.Settled exited s)
    {c : Nat} (hc : s.current = some c) : ∃ node, removedNode s = some node ∧ node.thread = c := by
  have hhead := h.running
  rw [hc, Scheduler.ready, Scheduler.nodes] at hhead
  unfold removedNode
  cases hfirst : s.queuePriority1.waiting with
  | cons node rest =>
      rw [hfirst] at hhead
      obtain rfl := Option.some.inj hhead
      rw [Queue.peek_eq_head, hfirst]
      exact ⟨node, by simp [hc], rfl⟩
  | nil =>
      rw [hfirst, List.nil_append, List.head?_map] at hhead
      obtain ⟨node, hnode, hthread⟩ := Option.map_eq_some_iff.mp hhead.symm
      rw [Queue.peek_eq_none.mpr hfirst, Queue.peek_eq_head, hnode]
      exact ⟨node, rfl, hthread⟩

section Steps

variable {contextSize : Nat} {exited : List Nat} {s next : Library} {blocks : List Block}

def Balanced (contextSize : Nat) (s : Library) (blocks : List Block) (next : Library) : Prop :=
  ∃ exited after, Accounts contextSize exited next after ∧
    Keeps (Known s.scheduler.threadIDS) s blocks next after ∧
      s.scheduler.threadIDS ≤ next.scheduler.threadIDS

theorem Accounts.unchanged (h : Accounts contextSize exited s blocks) {scheduler : Scheduler}
    (hsettled : Scheduler.Settled exited scheduler)
    (hthreads : scheduler.threads = s.scheduler.threads)
    (hids : scheduler.threadIDS = s.scheduler.threadIDS) :
    Balanced contextSize s blocks { s with scheduler } := by
  have halive : ∀ t, scheduler.Alive t ↔ s.scheduler.Alive t := by
    intro t
    rw [Scheduler.Alive, hthreads]
    rfl
  have hready : ∀ t, t ∈ scheduler.ready ↔ t ∈ s.scheduler.ready := by
    intro t
    rw [hsettled.consistent.ready_iff, hids, h.settled.consistent.ready_iff]
  refine ⟨exited, blocks, ?_, .of_holder rfl, Nat.le_of_eq hids.symm⟩
  exact
    { region := ⟨h.region.holdings, h.region.extent⟩
      first := h.first
      settled := hsettled
      main := (halive 0).mpr h.main
      below := fun t ht => hids.symm ▸ h.below t ((halive t).mp ht)
      due := fun object => (h.due object).trans (due_congr halive hready object).symm }

theorem Accounts.yield (h : Accounts contextSize exited s blocks)
    (hstep : s.myPthreadYield = some next) : Balanced contextSize s blocks next := by
  obtain ⟨⟨scheduler, switch⟩, hyield, hnext⟩ := Option.bind_eq_some_iff.mp hstep
  obtain rfl := Option.some.inj hnext
  obtain ⟨hthreads, hids⟩ := h.settled.yield_threads hyield
  obtain ⟨other, switch', hother, hsettled⟩ :=
    Scheduler.yield_settled h.settled.consistent h.settled.current_mem
  obtain ⟨rfl, -⟩ := Prod.mk.inj (Option.some.inj (hother.symm.trans hyield))
  exact h.unchanged hsettled hthreads hids

theorem create_alive {s next : Scheduler} {c : Nat} (h : Scheduler.Settled exited s)
    (hc : s.current = some c) {stale : Int} (hstep : s.step (.create stale) = some next) :
    Scheduler.Settled exited next ∧ next.threadIDS = s.threadIDS + 1 ∧
      (∀ t, next.Alive t ↔ t = s.threadIDS ∨ s.Alive t) ∧
        ∀ t, t ∈ next.ready ↔ t = s.threadIDS ∨ t ∈ s.ready := by
  have hallowed : (Scheduler.Op.create stale).Allowed s := trivial
  obtain ⟨other, hother, hsettled⟩ := Scheduler.step_settled h hc hallowed
  obtain rfl := Option.some.inj (hstep.symm.trans hother)
  obtain ⟨hthreads, hids⟩ := h.steady.create_threads hc hstep
  have hsettled : Scheduler.Settled exited next := hsettled
  refine ⟨hsettled, hids, fun t => ?_, fun t => ?_⟩
  · rw [Scheduler.Alive, hthreads]
    rcases Classical.em (t = s.threadIDS) with rfl | hne
    · simp
    · rw [Function.update_of_ne hne, or_iff_right hne]
      rfl
  · have hnot : s.threadIDS ∉ exited := fun hmem =>
      Nat.lt_irrefl _ (h.consistent.exited_lt _ hmem)
    rw [hsettled.consistent.ready_iff, hids, h.consistent.ready_iff]
    constructor
    · rintro ⟨hlt, hleft⟩
      exact (Nat.lt_succ_iff_lt_or_eq.mp hlt).symm.imp_right fun hold => ⟨hold, hleft⟩
    · rintro (rfl | ⟨hlt, hleft⟩)
      · exact ⟨Nat.lt_succ_self _, hnot⟩
      · exact ⟨Nat.lt_succ_of_lt hlt, hleft⟩

theorem exit_alive {s next : Scheduler} {c : Nat} (h : Scheduler.Settled exited s)
    (hc : s.current = some c) {valuePtr : Int} (hstep : s.step (.exit valuePtr) = some next) :
    Scheduler.Settled (c :: exited) next ∧ next.threadIDS = s.threadIDS ∧
      (∀ t, next.Alive t ↔ s.Alive t) ∧ ∀ t, t ∈ next.ready ↔ t ≠ c ∧ t ∈ s.ready := by
  have hallowed : (Scheduler.Op.exit valuePtr).Allowed s := trivial
  obtain ⟨other, hother, hsettled⟩ := Scheduler.step_settled h hc hallowed
  obtain rfl := Option.some.inj (hstep.symm.trans hother)
  obtain ⟨⟨value, hactive, hthreads⟩, hids⟩ := h.exit_threads hc hstep
  have hsettled : Scheduler.Settled (c :: exited) next := hsettled
  refine ⟨hsettled, hids, fun t => ?_, fun t => ?_⟩
  · rw [Scheduler.Alive, Scheduler.Alive, hthreads]
    rcases Classical.em (t = c) with rfl | hne
    · simp [hactive]
    · rw [Function.update_of_ne hne]
  · rw [hsettled.consistent.ready_iff, hids, h.consistent.ready_iff, List.mem_cons, not_or]
    exact and_left_comm

def threadObjects (t : Nat) : List Object :=
  [.struct t, .context t, .stack t, .node t, .pageTable t]

theorem due_create {s next : Scheduler} {t : Nat} (hpositive : t ≠ 0)
    (halive : ∀ u, next.Alive u ↔ u = t ∨ s.Alive u)
    (hready : ∀ u, u ∈ next.ready ↔ u = t ∨ u ∈ s.ready) (object : Object) :
    Due next object ↔ object ∈ threadObjects t ∨ Due s object := by
  cases object with
  | pageTables => simp [Due]
  | masterTable => simp [Due]
  | pageTable u => simp [Due, threadObjects, halive]
  | struct u => simp [Due, threadObjects, halive]
  | context u => simp [Due, threadObjects, halive]
  | stack u =>
      simp only [Due, threadObjects, halive, List.mem_cons, List.not_mem_nil, reduceCtorEq,
        Object.stack.injEq, false_or, or_false]
      rcases Classical.em (u = t) with rfl | hne
      · simp [hpositive]
      · simp [hne]
  | node u => simp [Due, threadObjects, hready]

/-- After the first `my_pthread_create` the main thread has its node. -/
theorem Accounts.created_eq (h : Accounts contextSize exited s blocks) (c : Nat) :
    s.created c = threadObjects s.scheduler.threadIDS := by
  rw [created, h.settled.consistent.mainEnqueued]
  rfl

theorem Accounts.known (h : Accounts contextSize exited s blocks) {object : Object}
    (hheld : s.holder object ≠ none) : Known s.scheduler.threadIDS object := by
  have hdue := (h.due object).mp hheld
  intro t ht
  cases object with
  | pageTables => cases ht
  | masterTable => cases ht
  | pageTable u => exact Option.some.inj ht ▸ h.below u hdue
  | struct u => exact Option.some.inj ht ▸ h.below u hdue
  | context u => exact Option.some.inj ht ▸ h.below u hdue
  | stack u => exact Option.some.inj ht ▸ h.below u hdue.2
  | node u => exact Option.some.inj ht ▸ ((h.settled.consistent.ready_iff u).mp hdue).1

theorem not_known {threadIDS : Nat} {object : Object} (h : object ∈ threadObjects threadIDS) :
    ¬ Known threadIDS object := by
  intro hknown
  simp only [threadObjects, List.mem_cons, List.not_mem_nil, or_false] at h
  rcases h with rfl | rfl | rfl | rfl | rfl <;> exact Nat.lt_irrefl _ (hknown _ rfl)

theorem Accounts.unheld (h : Accounts contextSize exited s blocks) :
    ∀ object ∈ threadObjects s.scheduler.threadIDS, s.holder object = none :=
  fun _ hobject => Classical.not_not.mp fun hheld => not_known hobject (h.known hheld)

theorem create_cases {c : Nat} (hc : s.scheduler.current = some c) {stale : Int}
    (hstep : s.myPthreadCreate contextSize stale = some next) :
    s.scheduler.threadIDS < maxThreads ∧
      ∃ mid scheduler switch, s.claimAll contextSize (s.created c) = some mid ∧
        mid.scheduler.myPthreadCreate stale = some (scheduler, switch) ∧
          next = { mid with scheduler } := by
  obtain ⟨c', hc', hstep⟩ := Option.bind_eq_some_iff.mp hstep
  obtain rfl := Option.some.inj (hc.symm.trans hc')
  rcases Classical.em (s.scheduler.threadIDS < maxThreads) with hroom | hfull
  · rw [if_pos hroom] at hstep
    obtain ⟨mid, hclaims, hstep⟩ := Option.bind_eq_some_iff.mp hstep
    obtain ⟨⟨scheduler, switch⟩, hcreate, hnext⟩ := Option.bind_eq_some_iff.mp hstep
    exact ⟨hroom, mid, scheduler, switch, hclaims, hcreate, (Option.some.inj hnext).symm⟩
  · rw [if_neg hfull] at hstep
    cases hstep

theorem Accounts.create (h : Accounts contextSize exited s blocks) {c : Nat}
    (hc : s.scheduler.current = some c) {stale : Int}
    (hstep : s.myPthreadCreate contextSize stale = some next) :
    Balanced contextSize s blocks next := by
  obtain ⟨-, mid, scheduler, switch, hclaims, hcreate, rfl⟩ := create_cases hc hstep
  have hpositive := h.below 0 h.main
  rw [h.created_eq c] at hclaims
  obtain ⟨after, hregion, hsched, hheld, -, hkeeps⟩ :=
    h.region.claimAll _ (by simp [threadObjects]) h.unheld hclaims
  rw [hsched] at hcreate
  have hcall : s.scheduler.step (.create stale) = some scheduler := by
    rw [Scheduler.step, hcreate]
    rfl
  obtain ⟨hsettled, hids, halive, hready⟩ := create_alive h.settled hc hcall
  have hknown : ∀ object, Known s.scheduler.threadIDS object →
      object ∉ threadObjects s.scheduler.threadIDS :=
    fun _ hknown hmem => not_known hmem hknown
  have htables : mid.holder .pageTables = some 4 := by
    have hout := hknown .pageTables fun _ hnone => by cases hnone
    rcases hkeeps.held _ 4 hout h.first with hnone | ⟨hsome, -⟩
    · exact absurd hnone ((hheld _).mpr (Or.inr (by simp [h.first])))
    · exact hsome
  refine ⟨exited, after, ?_, ?_, hids ▸ Nat.le_succ _⟩
  · exact
      { region := ⟨hregion.holdings, hregion.extent⟩
        first := htables
        settled := hsettled
        main := (halive 0).mpr (Or.inr h.main)
        below := by
          intro t ht
          rw [hids]
          rcases (halive t).mp ht with rfl | hold
          · exact Nat.lt_succ_self _
          · exact Nat.lt_succ_of_lt (h.below t hold)
        due := by
          intro object
          rw [due_create (Nat.ne_of_gt hpositive) halive hready, ← h.due]
          exact hheld object }
  · have hkept := hkeeps.mono hknown
    exact ⟨hkept.held, hkept.gone⟩

theorem Accounts.exit (h : Accounts contextSize exited s blocks) {c : Nat}
    (hc : s.scheduler.current = some c) {valuePtr : Int}
    (hstep : s.myPthreadExit valuePtr = some next) : Balanced contextSize s blocks next := by
  obtain ⟨node, hremoved, rfl⟩ := removedNode_eq h.settled hc
  have hmem := h.settled.current_mem _ hc
  obtain ⟨ptr, hptr⟩ := Option.ne_none_iff_exists'.mp ((h.due (.node node.thread)).mpr hmem)
  obtain ⟨mid, after, hdiscard, hregion, hsched, hholder, hkeeps⟩ :=
    h.region.discard h.first (by simp) hptr
  simp only [Library.myPthreadExit, hremoved, hdiscard, Option.bind_eq_bind,
    Option.bind_some] at hstep
  obtain ⟨⟨scheduler, switch⟩, hexit, hnext⟩ := Option.bind_eq_some_iff.mp hstep
  obtain rfl := Option.some.inj hnext
  have hcall : s.scheduler.step (.exit valuePtr) = some scheduler := by
    rw [Scheduler.step, hexit]
    rfl
  obtain ⟨hsettled, hids, halive, hready⟩ := exit_alive h.settled hc hcall
  refine ⟨node.thread :: exited, after, ?_, ?_, Nat.le_of_eq hids.symm⟩
  · exact
      { region := ⟨hregion.holdings, hregion.extent⟩
        first := by
          change mid.holder .pageTables = some 4
          rw [hholder, Function.update_of_ne (by simp), h.first]
        settled := hsettled
        main := (halive 0).mpr h.main
        below := fun t ht => hids.symm ▸ h.below t ((halive t).mp ht)
        due := by
          intro object
          change mid.holder object ≠ none ↔ _
          rw [hholder]
          rcases Classical.em (object = .node node.thread) with rfl | hne
          · simp [Due, hready]
          · rw [Function.update_of_ne hne, h.due]
            cases object with
            | node t =>
                have hother : t ≠ node.thread := fun heq => hne (congrArg Object.node heq)
                rw [Due, Due, hready, and_iff_right hother]
            | pageTables => exact Iff.rfl
            | masterTable => exact Iff.rfl
            | pageTable t => exact (halive t).symm
            | struct t => exact (halive t).symm
            | context t => exact (halive t).symm
            | stack t => exact and_congr_right fun _ => (halive t).symm }
  · have hkept := hkeeps (Known s.scheduler.threadIDS)
    exact ⟨hkept.held, hkept.gone⟩

def joinedObjects (t : Nat) : List Object :=
  [.pageTable t, .stack t, .context t, .struct t]

theorem due_join {s next : Scheduler} {t : Nat} (halive : ∀ u, next.Alive u ↔ u ≠ t ∧ s.Alive u)
    (hready : ∀ u, u ∈ next.ready ↔ u ∈ s.ready) (object : Object) :
    Due next object ↔ object ∉ joinedObjects t ∧ Due s object := by
  cases object with
  | pageTables => simp [Due, joinedObjects]
  | masterTable => simp [Due, joinedObjects]
  | pageTable u => simp [Due, joinedObjects, halive]
  | struct u => simp [Due, joinedObjects, halive]
  | context u => simp [Due, joinedObjects, halive]
  | stack u =>
      simp only [Due, joinedObjects, halive, List.mem_cons, List.not_mem_nil, reduceCtorEq,
        Object.stack.injEq, false_or, or_false]
      exact and_left_comm
  | node u => simp [Due, joinedObjects, hready]

theorem Accounts.join (h : Accounts contextSize exited s blocks) {t : Nat}
    (hstep : s.myPthreadJoin t = some next) : Balanced contextSize s blocks next := by
  obtain ⟨⟨scheduler, switch, value⟩, hjoin, hstep⟩ := Option.bind_eq_some_iff.mp hstep
  cases hthread : s.scheduler.threads t with
  | none => simp [Scheduler.myPthreadJoin, hthread] at hjoin
  | some thread =>
      rcases Classical.em (thread.state = .completed) with hcompleted | hwaiting
      · simp only [Scheduler.myPthreadJoin, hthread, Option.bind_eq_bind, Option.bind_some,
          ne_eq, hcompleted, not_true_eq_false, if_false] at hjoin
        obtain ⟨rfl, hrest⟩ := Prod.mk.inj (Option.some.inj hjoin)
        obtain ⟨-, rfl⟩ := Prod.mk.inj hrest
        have hheld := held_of_discardAll _ hstep
        have hnonzero : t ≠ 0 := ((h.due (.stack t)).mp (hheld _ (by simp))).1
        obtain ⟨other, switch, value, hother, hsettled⟩ := Scheduler.join_settled h.settled hthread
        have hreleased : s.scheduler.myPthreadJoin t =
            some (s.scheduler.setThread t none, .stay, some thread.returnValue) := by
          simp [Scheduler.myPthreadJoin, hthread, hcompleted]
        obtain ⟨rfl, -⟩ := Prod.mk.inj (Option.some.inj (hreleased.symm.trans hother))
        have hregion : OsRegion contextSize { s with scheduler := s.scheduler.setThread t none }
            blocks := ⟨h.region.holdings, h.region.extent⟩
        obtain ⟨last, after, hlast, hafter, hsched, hholds, hkeeps⟩ :=
          hregion.discardAll (joinedObjects t) h.first (by simp [joinedObjects])
            (by simp [joinedObjects]) hheld
        obtain rfl := Option.some.inj (hlast.symm.trans hstep)
        have halive : ∀ u, (s.scheduler.setThread t none).Alive u ↔
            u ≠ t ∧ s.scheduler.Alive u := by
          intro u
          change Function.update s.scheduler.threads t none u ≠ none ↔ _
          rcases Classical.em (u = t) with rfl | hne
          · simp
          · rw [Function.update_of_ne hne, and_iff_right hne]
            rfl
        have htables : last.holder .pageTables = some 4 := by
          rcases (hkeeps fun _ => True).held .pageTables 4 trivial h.first with hnone | ⟨hsome, -⟩
          · exact absurd hnone ((hholds _).mpr ⟨by simp [joinedObjects], by simp [h.first]⟩)
          · exact hsome
        refine ⟨exited, after, ?_, ?_, Nat.le_of_eq (congrArg Scheduler.threadIDS hsched).symm⟩
        · exact
            { region := hafter
              first := htables
              settled := hsched ▸ hsettled
              main := hsched ▸ (halive 0).mpr ⟨Ne.symm hnonzero, h.main⟩
              below := by
                intro u hu
                rw [hsched] at hu ⊢
                exact h.below u ((halive u).mp hu).2
              due := by
                intro object
                rw [hsched, due_join halive (fun _ => Iff.rfl), ← h.due]
                exact hholds object }
        · have hkept := hkeeps (Known s.scheduler.threadIDS)
          exact ⟨hkept.held, hkept.gone⟩
      · simp only [Scheduler.myPthreadJoin, hthread, Option.bind_eq_bind, Option.bind_some,
          ne_eq, hwaiting, not_false_eq_true, if_true] at hjoin
        obtain ⟨⟨yielded, switch'⟩, hyield, hround⟩ := Option.bind_eq_some_iff.mp hjoin
        obtain ⟨rfl, hrest⟩ := Prod.mk.inj (Option.some.inj hround)
        obtain ⟨-, rfl⟩ := Prod.mk.inj hrest
        obtain rfl := Option.some.inj hstep
        exact h.yield (by rw [Library.myPthreadYield, hyield]; rfl)

/-- The step lemma. -/
theorem Accounts.step (h : Accounts contextSize exited s blocks) {event : Event}
    (hallowed : s.Allowed contextSize event) (hstep : s.step contextSize event = some next) :
    Balanced contextSize s blocks next := by
  cases event with
  | call op =>
      obtain ⟨c, hc⟩ := hallowed
      cases op with
      | create stale => exact h.create hc hstep
      | yield => exact h.yield hstep
      | exit valuePtr => exact h.exit hc hstep
      | join t => exact h.join hstep
  | write object offset byte =>
      obtain ⟨ptr, hptr⟩ := Option.ne_none_iff_exists'.mp hallowed.1
      simp only [Library.step, hptr, Option.bind_eq_bind, Option.bind_some] at hstep
      obtain rfl := Option.some.inj hstep
      have hregion := h.region.holdings.write hptr hallowed.2 byte
      exact ⟨exited, blocks, { h with region := ⟨hregion, h.region.extent⟩ },
        .of_holder rfl, Nat.le_refl _⟩
  | elsewhere memory =>
      obtain rfl := Option.some.inj hstep
      have hregion : Holdings tagCodec memory 0 s.holder (Object.size contextSize) blocks :=
        h.region.holdings.congr fun x _ hhigh => by
          rw [h.region.extent] at hhigh
          exact hallowed x hhigh
      exact ⟨exited, blocks, { h with region := ⟨hregion, h.region.extent⟩ },
        .of_holder rfl, Nat.le_refl _⟩

/-- The run lemma. -/
theorem Accounts.run (h : Accounts contextSize exited s blocks) {last : Library}
    (hrun : Run contextSize s last) : Balanced contextSize s blocks last := by
  induction hrun with
  | start => exact ⟨exited, blocks, h, .of_holder rfl, Nat.le_refl _⟩
  | @step mid last event _ hallowed hstep ih =>
      obtain ⟨exited', middle, hmid, hkeeps, hids⟩ := ih
      obtain ⟨exited'', after, hlast, hkeeps', hids'⟩ := hmid.step hallowed hstep
      exact ⟨exited'', after, hlast,
        hkeeps.trans (hkeeps'.mono fun object hknown => hknown.mono hids),
        Nat.le_trans hids hids'⟩

end Steps

end RutgersOS.Assignment2.Library
