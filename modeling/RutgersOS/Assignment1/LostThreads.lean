import Mathlib.Data.List.Nodup
import RutgersOS.Assignment1.Preemption

namespace RutgersOS.Assignment1

open RutgersOS.Pthread

/-! The threads outside the queues.  A call that has dequeued a node, or made
the main thread, holds that thread until the node is enqueued or completed. -/

def Frame.held : Frame → List Nat
  | .dequeued _ node => [node.thread]
  | .exitDequeued _ removedNode => [removedNode.thread]
  | .createMain => [0]
  | _ => []

def heldBy (stack : List Frame) : List Nat :=
  stack.flatMap Frame.held

/-- The main thread has no struct before the first `my_pthread_create`. -/
def unstarted (isInitialized : Bool) : List Nat :=
  if isInitialized then [] else [0]

namespace State

def outside (s : State) : List Nat :=
  unstarted s.isInitialized ++ heldBy s.stack

def TakesCaller (s : State) : Frame → Prop
  | .exitHeads currentThread head1 head2 =>
      (if head1 = some currentThread then s.queuePriority1.peek
        else if head2 ≠ none then s.queuePriority2.peek else none).map
          QueueNode.thread = some currentThread
  | _ => True

/-- A signal comes while every unexited thread is in a queue, or none is. -/
def Safe (s : State) : Event → Prop
  | .call _ => True
  | .advance =>
      match s.stack with
      | [] => True
      | frame :: _ => s.TakesCaller frame
  | .deliver => s.outside = [] ∨ s.ready = []

instance (s : State) : (frame : Frame) → Decidable (s.TakesCaller frame)
  | .exitHeads _ _ _ => inferInstanceAs (Decidable (_ = _))
  | .yieldEntry | .firstEmpty | .chosen _ _ | .dequeued _ _ | .requeued _
  | .picked _ | .createEntry | .createEnqueued | .createMain | .exitEntry
  | .exitFirst _ _ | .exitDequeued _ _ | .exitRemoved =>
      inferInstanceAs (Decidable True)

instance (s : State) : (event : Event) → Decidable (s.Safe event)
  | .call _ => inferInstanceAs (Decidable True)
  | .advance =>
      match h : s.stack with
      | [] => decidable_of_iff True (by simp [Safe, h])
      | frame :: _ => decidable_of_iff (s.TakesCaller frame) (by simp [Safe, h])
  | .deliver => inferInstanceAs (Decidable (_ ∨ _))

end State

def Frame.Idle : Frame → Prop
  | .yieldEntry | .firstEmpty | .createEntry | .createEnqueued | .exitEntry => True
  | _ => False

/-- `my_pthread_create` and `my_pthread_exit` are called from user code only, and
the node an exit has removed is that of the caller. -/
def Frame.Fits (rest : List Frame) : Frame → Prop
  | .createEntry | .createEnqueued | .createMain | .exitEntry => rest = []
  | .exitDequeued currentThread removedNode =>
      removedNode.thread = currentThread
  | _ => True

def AllFit : List Frame → Prop
  | [] => True
  | frame :: rest => frame.Fits rest ∧ AllFit rest

def Guarded (base ready : List Nat) : List Frame → Prop
  | [] => True
  | frame :: rest =>
      (base ++ heldBy rest ≠ [] →
        frame.Idle ∧ (ready = [] ∨ frame = .createEnqueued)) ∧
      Guarded base ready rest

theorem heldBy_cons (frame : Frame) (rest : List Frame) :
    heldBy (frame :: rest) = frame.held ++ heldBy rest :=
  List.flatMap_cons

theorem guarded_of_clear {base ready : List Nat} {stack : List Frame}
    (h : base ++ heldBy stack = []) : Guarded base ready stack := by
  induction stack with
  | nil => trivial
  | cons frame rest ih =>
      have hrest : base ++ heldBy rest = [] := by
        rw [heldBy_cons, List.append_eq_nil_iff, List.append_eq_nil_iff] at h
        rw [List.append_eq_nil_iff]
        exact ⟨h.1, h.2.2⟩
      exact ⟨fun hheld => absurd hrest hheld, ih hrest⟩

structure Bookkeeping (exited : List Nat) (threadIDS : Nat)
    (isInitialized : Bool) (ready : List Nat) (state : Nat → MyPthreadState)
    (context : Nat → Option (List Frame)) (stack : List Frame) : Prop where
  distinct : (unstarted isInitialized ++ heldBy stack ++ ready).Nodup
  members : ∀ t, t ∈ unstarted isInitialized ++ heldBy stack ++ ready ↔
    t < threadIDS ∧ t ∉ exited
  exited_lt : ∀ t ∈ exited, t < threadIDS
  active : ∀ t ∈ unstarted isInitialized ++ heldBy stack ++ ready,
    state t = .active
  saved : ∀ t saved, context t = some saved → heldBy saved = [] ∧ AllFit saved
  guarded : Guarded (unstarted isInitialized) ready stack
  fit : AllFit stack
  opening : isInitialized = false → ready ≠ [] → stack = [.createEnqueued]

namespace Bookkeeping

variable {exited : List Nat} {threadIDS : Nat} {isInitialized : Bool}
  {ready ready' : List Nat} {state : Nat → MyPthreadState}
  {context : Nat → Option (List Frame)} {frame frame' : Frame}
  {stack rest : List Frame}

theorem clear
    (h : Bookkeeping exited threadIDS isInitialized ready state context
      (frame :: rest)) (hbusy : ¬ frame.Idle) :
    isInitialized = true ∧ heldBy rest = [] := by
  have hnone : unstarted isInitialized ++ heldBy rest = [] :=
    Classical.byContradiction fun hheld => hbusy (h.guarded.1 hheld).1
  obtain ⟨hbase, hrest⟩ := List.append_eq_nil_iff.mp hnone
  cases isInitialized with
  | true => exact ⟨rfl, hrest⟩
  | false => cases hbase

theorem replace
    (h : Bookkeeping exited threadIDS isInitialized ready state context
      (frame :: rest)) (hheld : frame'.held = frame.held)
    (hfits : frame'.Fits rest)
    (hidle : unstarted isInitialized ++ heldBy rest ≠ [] →
      frame'.Idle ∧ (ready = [] ∨ frame' = .createEnqueued))
    (hopening : isInitialized = false → ready = []) :
    Bookkeeping exited threadIDS isInitialized ready state context
      (frame' :: rest) where
  distinct := by
    rw [heldBy_cons, hheld, ← heldBy_cons]
    exact h.distinct
  members := by
    rw [heldBy_cons, hheld, ← heldBy_cons]
    exact h.members
  exited_lt := h.exited_lt
  active := by
    rw [heldBy_cons, hheld, ← heldBy_cons]
    exact h.active
  saved := h.saved
  guarded := ⟨hidle, h.guarded.2⟩
  fit := ⟨hfits, h.fit.2⟩
  opening hfalse hready := absurd (hopening hfalse) hready

theorem advance
    (h : Bookkeeping exited threadIDS isInitialized ready state context
      (frame :: rest)) (hbusy : ¬ frame.Idle) (hheld : frame'.held = frame.held)
    (hfits : frame'.Fits rest) :
    Bookkeeping exited threadIDS isInitialized ready state context
      (frame' :: rest) := by
  obtain ⟨rfl, hrest⟩ := h.clear hbusy
  exact h.replace hheld hfits (fun hne => absurd hrest hne) nofun

theorem pop
    (h : Bookkeeping exited threadIDS isInitialized ready state context
      (frame :: rest)) (hheld : frame.held = [])
    (hopening : isInitialized = false → ready = []) :
    Bookkeeping exited threadIDS isInitialized ready state context rest := by
  have hrest : heldBy (frame :: rest) = heldBy rest := by
    rw [heldBy_cons, hheld, List.nil_append]
  exact
    { distinct := hrest ▸ h.distinct
      members := hrest ▸ h.members
      exited_lt := h.exited_lt
      active := hrest ▸ h.active
      saved := h.saved
      guarded := h.guarded.2
      fit := h.fit.2
      opening := fun hfalse hready => absurd (hopening hfalse) hready }

/-- The held threads and the ready ones are shuffled, by an access of a frame
under which no thread is held. -/
theorem shuffle
    (h : Bookkeeping exited threadIDS true ready state context
      (frame :: rest)) (hclear : heldBy rest = [])
    (hperm : (frame'.held ++ ready').Perm (frame.held ++ ready))
    (hfits : frame'.Fits rest) :
    Bookkeeping exited threadIDS true ready' state context
      (frame' :: rest) := by
  have hall : (unstarted true ++ heldBy (frame' :: rest) ++ ready').Perm
      (unstarted true ++ heldBy (frame :: rest) ++ ready) := by
    rw [heldBy_cons, heldBy_cons, hclear, List.append_nil, List.append_nil]
    exact hperm
  exact
    { distinct := hall.nodup_iff.mpr h.distinct
      members := fun t => hall.mem_iff.trans (h.members t)
      exited_lt := h.exited_lt
      active := fun t ht => h.active t (hall.mem_iff.mp ht)
      saved := h.saved
      guarded := ⟨fun hne => absurd hclear hne, guarded_of_clear hclear⟩
      fit := ⟨hfits, h.fit.2⟩
      opening := nofun }

theorem setActive
    (h : Bookkeeping exited threadIDS isInitialized ready state context stack)
    (t : Nat) :
    Bookkeeping exited threadIDS isInitialized ready
      (Function.update state t .active) context stack where
  distinct := h.distinct
  members := h.members
  exited_lt := h.exited_lt
  active u hu := by
    rcases Classical.em (u = t) with rfl | hne
    · exact Function.update_self _ _ _
    · rw [Function.update_of_ne hne]
      exact h.active u hu
  saved := h.saved
  guarded := h.guarded
  fit := h.fit
  opening := h.opening

theorem resume
    (h : Bookkeeping exited threadIDS true ready state context (frame :: rest))
    (hheld : frame.held = []) (hclear : heldBy rest = [])
    {context' : Nat → Option (List Frame)} {stack : List Frame}
    (hcontext : ∀ t saved, context' t = some saved →
      saved = rest ∨ ∃ u, context u = some saved)
    (hstack : stack = rest ∨ ∃ u, context u = some stack) :
    Bookkeeping exited threadIDS true ready state context' stack := by
  have hsaved : ∀ saved, (saved = rest ∨ ∃ u, context u = some saved) →
      heldBy saved = [] ∧ AllFit saved := by
    rintro saved (rfl | ⟨u, hu⟩)
    · exact ⟨hclear, h.fit.2⟩
    · exact h.saved u saved hu
  have hnew := hsaved stack hstack
  have hsame : heldBy (frame :: rest) = heldBy stack := by
    rw [heldBy_cons, hheld, hclear, hnew.1, List.append_nil]
  exact
    { distinct := hsame ▸ h.distinct
      members := hsame ▸ h.members
      exited_lt := h.exited_lt
      active := hsame ▸ h.active
      saved := fun t saved ht => hsaved saved (hcontext t saved ht)
      guarded := guarded_of_clear hnew.1
      fit := hnew.2
      opening := nofun }

theorem create
    (h : Bookkeeping exited threadIDS isInitialized ready state context
      (.createEntry :: rest))
    (hready : ready'.Perm (threadIDS :: ready)) :
    Bookkeeping exited (threadIDS + 1) isInitialized ready'
      (Function.update state threadIDS .active)
      (Function.update context threadIDS (some []))
      (.createEnqueued :: rest) := by
  obtain rfl : rest = [] := h.fit.1
  have hall : (unstarted isInitialized ++ heldBy [.createEnqueued] ++
      ready').Perm (threadIDS ::
        (unstarted isInitialized ++ heldBy [.createEntry] ++ ready)) :=
    (hready.append_left _).trans List.perm_middle
  have hfresh : threadIDS ∉
      unstarted isInitialized ++ heldBy [.createEntry] ++ ready := by
    intro hmem
    exact Nat.lt_irrefl _ ((h.members _).mp hmem).1
  have hactive := h.setActive threadIDS
  refine
    { distinct := hall.nodup_iff.mpr (List.nodup_cons.mpr ⟨hfresh, h.distinct⟩)
      members := ?_
      exited_lt := fun t ht => Nat.lt_succ_of_lt (h.exited_lt t ht)
      active := ?_
      saved := ?_
      guarded := ⟨fun _ => ⟨trivial, Or.inr rfl⟩, trivial⟩
      fit := ⟨rfl, trivial⟩
      opening := fun _ _ => rfl }
  · intro t
    rw [hall.mem_iff, List.mem_cons, h.members t]
    constructor
    · rintro (rfl | ⟨hlt, hnot⟩)
      · exact ⟨Nat.lt_succ_self _, fun hexited =>
          Nat.lt_irrefl _ (h.exited_lt _ hexited)⟩
      · exact ⟨Nat.lt_succ_of_lt hlt, hnot⟩
    · rintro ⟨hlt, hnot⟩
      rcases Nat.lt_succ_iff_lt_or_eq.mp hlt with hold | heq
      · exact Or.inr ⟨hold, hnot⟩
      · exact Or.inl heq
  · intro t ht
    rcases List.mem_cons.mp (hall.mem_iff.mp ht) with rfl | hold
    · exact Function.update_self _ _ _
    · exact hactive.active t hold
  · intro t saved hsaved
    rcases Classical.em (t = threadIDS) with rfl | hne
    · rw [Function.update_self] at hsaved
      obtain rfl := Option.some.inj hsaved
      exact ⟨rfl, trivial⟩
    · rw [Function.update_of_ne hne] at hsaved
      exact h.saved t saved hsaved

theorem start
    (h : Bookkeeping exited threadIDS false ready state context
      (.createEnqueued :: rest)) :
    Bookkeeping exited threadIDS true ready (Function.update state 0 .active)
      context (.createMain :: rest) := by
  obtain rfl : rest = [] := h.fit.1
  have hactive := h.setActive 0
  exact
    { distinct := hactive.distinct
      members := hactive.members
      exited_lt := hactive.exited_lt
      active := hactive.active
      saved := hactive.saved
      guarded := ⟨fun hne => absurd rfl hne, trivial⟩
      fit := ⟨rfl, trivial⟩
      opening := nofun }

theorem complete {currentThread : Nat} {removedNode : QueueNode}
    (h : Bookkeeping exited threadIDS true ready state context
      (.exitDequeued currentThread removedNode :: rest)) :
    Bookkeeping (currentThread :: exited) threadIDS true ready
      (Function.update state removedNode.thread .completed) context
      (.exitRemoved :: rest) := by
  obtain rfl : removedNode.thread = currentThread := h.fit.1
  have hclear := (h.clear id).2
  have hbefore : unstarted true ++ heldBy
      (.exitDequeued removedNode.thread removedNode :: rest) ++ ready =
        removedNode.thread :: ready := by
    rw [heldBy_cons, hclear]
    rfl
  have hafter : unstarted true ++ heldBy (.exitRemoved :: rest) ++ ready =
      ready := by
    rw [heldBy_cons, hclear]
    rfl
  have hdistinct := h.distinct
  have hmembers := h.members
  have hactive := h.active
  rw [hbefore] at hdistinct hmembers hactive
  obtain ⟨hgone, hdistinct⟩ := List.nodup_cons.mp hdistinct
  refine
    { distinct := by rwa [hafter]
      members := ?_
      exited_lt := ?_
      active := ?_
      saved := h.saved
      guarded := ⟨fun hne => absurd hclear hne, h.guarded.2⟩
      fit := ⟨trivial, h.fit.2⟩
      opening := nofun }
  · intro t
    rw [hafter, List.mem_cons, not_or]
    constructor
    · intro ht
      have hold := (hmembers t).mp (List.mem_cons_of_mem _ ht)
      exact ⟨hold.1, fun heq => hgone (heq ▸ ht), hold.2⟩
    · rintro ⟨hlt, hne, hnot⟩
      have hmem := (hmembers t).mpr ⟨hlt, hnot⟩
      exact (List.mem_cons.mp hmem).resolve_left hne
  · intro t ht
    rcases List.mem_cons.mp ht with rfl | hold
    · exact ((hmembers _).mp List.mem_cons_self).1
    · exact h.exited_lt t hold
  · intro t ht
    rw [hafter] at ht
    have hne : t ≠ removedNode.thread := fun heq => hgone (heq ▸ ht)
    rw [Function.update_of_ne hne]
    exact hactive t (List.mem_cons_of_mem _ ht)

theorem push
    (h : Bookkeeping exited threadIDS isInitialized ready state context stack)
    (hheld : frame.held = []) (hfits : frame.Fits stack)
    (hidle : unstarted isInitialized ++ heldBy stack ≠ [] →
      frame.Idle ∧ ready = []) :
    Bookkeeping exited threadIDS isInitialized ready state context
      (frame :: stack) := by
  have hsame : heldBy (frame :: stack) = heldBy stack := by
    rw [heldBy_cons, hheld, List.nil_append]
  refine
    { distinct := hsame ▸ h.distinct
      members := hsame ▸ h.members
      exited_lt := h.exited_lt
      active := hsame ▸ h.active
      saved := h.saved
      guarded := ⟨fun hne => ⟨(hidle hne).1, Or.inl (hidle hne).2⟩, h.guarded⟩
      fit := ⟨hfits, h.fit⟩
      opening := ?_ }
  intro hfalse hready
  subst hfalse
  have hempty := (hidle (by simp [unstarted])).2
  exact absurd hempty hready

theorem opening_empty
    (h : Bookkeeping exited threadIDS isInitialized ready state context
      (frame :: rest)) (hframe : frame ≠ .createEnqueued) :
    isInitialized = false → ready = [] := by
  intro hfalse
  apply Classical.byContradiction
  intro hready
  exact hframe (List.cons.inj (h.opening hfalse hready)).1

theorem idle_empty
    (h : Bookkeeping exited threadIDS isInitialized ready state context
      (frame :: rest)) (hframe : frame ≠ .createEnqueued)
    (hheld : unstarted isInitialized ++ heldBy rest ≠ []) : ready = [] :=
  (h.guarded.1 hheld).2.resolve_right hframe

end Bookkeeping

namespace State

structure Sound (exited : List Nat) (s : State) : Prop where
  book : Bookkeeping exited s.threadIDS s.isInitialized s.ready s.state
    s.context s.stack
  unset : s.isInitialized = false → s.current = none

theorem ready_of_peek1 {s : State} {node : QueueNode}
    (h : s.queuePriority1.peek = some node) : s.ready ≠ [] := by
  rw [Queue.peek_eq_head] at h
  obtain ⟨rest, hwaiting⟩ := List.head?_eq_some_iff.mp h
  simp [ready, hwaiting]

theorem ready_of_peek2 {s : State} {node : QueueNode}
    (h : s.queuePriority2.peek = some node) : s.ready ≠ [] := by
  rw [Queue.peek_eq_head] at h
  obtain ⟨rest, hwaiting⟩ := List.head?_eq_some_iff.mp h
  simp [ready, hwaiting]

theorem dequeue1_ready {s after : State} {node : QueueNode}
    (h : s.dequeue1 = some (node, after)) :
    ∃ queue, after = { s with queuePriority1 := queue } ∧
      (node.thread :: after.ready).Perm s.ready ∧
        s.queuePriority1.peek = some node := by
  obtain ⟨⟨iter, queue⟩, hdequeue, heq⟩ := Option.map_eq_some_iff.mp h
  obtain ⟨rfl, rfl⟩ := Prod.mk.inj heq
  have hwaiting := Queue.waiting_dequeue hdequeue
  refine ⟨queue, rfl, ?_, ?_⟩
  · rw [ready, ready, hwaiting]
    exact List.Perm.refl _
  · rw [Queue.peek_eq_head, hwaiting]
    rfl

theorem dequeue2_ready {s after : State} {node : QueueNode}
    (h : s.dequeue2 = some (node, after)) :
    ∃ queue, after = { s with queuePriority2 := queue } ∧
      (node.thread :: after.ready).Perm s.ready ∧
        s.queuePriority2.peek = some node := by
  obtain ⟨⟨iter, queue⟩, hdequeue, heq⟩ := Option.map_eq_some_iff.mp h
  obtain ⟨rfl, rfl⟩ := Prod.mk.inj heq
  have hwaiting := Queue.waiting_dequeue hdequeue
  refine ⟨queue, rfl, ?_, ?_⟩
  · rw [ready, ready, hwaiting]
    exact (List.perm_middle (a := iter)).symm.map QueueNode.thread
  · rw [Queue.peek_eq_head, hwaiting]
    rfl

theorem enqueue1_ready (s : State) (node : QueueNode) :
    ({ s with
      queuePriority1 := s.queuePriority1.enqueue node } : State).ready.Perm
        (node.thread :: s.ready) := by
  rw [ready, ready, Queue.waiting_enqueue, List.append_assoc]
  exact List.perm_middle.map QueueNode.thread

theorem enqueue2_ready (s : State) (node : QueueNode) :
    ({ s with
      queuePriority2 := s.queuePriority2.enqueue node } : State).ready.Perm
        (node.thread :: s.ready) := by
  rw [ready, ready, Queue.waiting_enqueue, ← List.append_assoc]
  exact (List.perm_append_singleton _ _).map QueueNode.thread

def Clear (s : State) : Prop :=
  s.isInitialized = true ∧ heldBy s.stack = []

theorem setcontext_sound {exited : List Nat} {s next : State} {frame : Frame}
    (hbook : Bookkeeping exited s.threadIDS s.isInitialized s.ready s.state
      s.context (frame :: s.stack)) (hbusy : ¬ frame.Idle)
    (hheld : frame.held = []) {t : Nat} (h : s.setcontext t = some next) :
    Sound exited next ∧ next.Clear := by
  obtain ⟨hinit, hclear⟩ := hbook.clear hbusy
  obtain ⟨stack, hstack, rfl⟩ := Option.map_eq_some_iff.mp h
  rw [hinit] at hbook
  have hsaved : ∀ u saved, Function.update s.context t none u = some saved →
      saved = s.stack ∨ ∃ v, s.context v = some saved := by
    intro u saved hsaved
    rcases Classical.em (u = t) with rfl | hne
    · rw [Function.update_self] at hsaved
      cases hsaved
    · rw [Function.update_of_ne hne] at hsaved
      exact Or.inr ⟨u, hsaved⟩
  have hnext := hbook.resume hheld hclear hsaved (Or.inr ⟨t, hstack⟩)
  refine ⟨⟨hinit ▸ hnext, ?_⟩, hinit, (hbook.saved t stack hstack).1⟩
  intro hfalse
  rw [hinit] at hfalse
  cases hfalse

theorem swapcontext_sound {exited : List Nat} {s next : State} {frame : Frame}
    (hbook : Bookkeeping exited s.threadIDS s.isInitialized s.ready s.state
      s.context (frame :: s.stack)) (hbusy : ¬ frame.Idle)
    (hheld : frame.held = []) {temp t : Nat}
    (h : s.swapcontext temp t = some next) :
    Sound exited next ∧ next.Clear := by
  obtain ⟨hinit, hclear⟩ := hbook.clear hbusy
  have hsaved : Bookkeeping exited s.threadIDS s.isInitialized s.ready s.state
      (Function.update s.context temp (some s.stack)) (frame :: s.stack) := by
    refine { hbook with saved := ?_ }
    intro u saved hu
    rcases Classical.em (u = temp) with rfl | hne
    · rw [Function.update_self] at hu
      obtain rfl := Option.some.inj hu
      exact ⟨hclear, hbook.fit.2⟩
    · rw [Function.update_of_ne hne] at hu
      exact hbook.saved u saved hu
  exact setcontext_sound
    (s := { s with context := Function.update s.context temp (some s.stack) })
    hsaved hbusy hheld h

section Advance

variable {exited : List Nat} {s next : State}

theorem yieldEntry_sound
    (hbook : Bookkeeping exited s.threadIDS s.isInitialized s.ready s.state
      s.context (.yieldEntry :: s.stack))
    (hunset : s.isInitialized = false → s.current = none)
    (h : s.advance .yieldEntry = some next) : Sound exited next := by
  have hopening := hbook.opening_empty nofun
  simp only [advance] at h
  cases hpeek : s.queuePriority1.peek with
  | some node =>
      simp only [hpeek] at h
      obtain rfl := Option.some.inj h
      have hready := ready_of_peek1 hpeek
      refine ⟨hbook.replace rfl trivial (fun hheld => ?_) hopening, hunset⟩
      exact absurd (hbook.idle_empty nofun hheld) hready
  | none =>
      simp only [hpeek] at h
      obtain rfl := Option.some.inj h
      exact ⟨hbook.replace rfl trivial (fun hheld =>
        ⟨trivial, Or.inl (hbook.idle_empty nofun hheld)⟩) hopening, hunset⟩

theorem firstEmpty_sound
    (hbook : Bookkeeping exited s.threadIDS s.isInitialized s.ready s.state
      s.context (.firstEmpty :: s.stack))
    (hunset : s.isInitialized = false → s.current = none)
    (h : s.advance .firstEmpty = some next) : Sound exited next := by
  have hopening := hbook.opening_empty nofun
  simp only [advance] at h
  cases hpeek : s.queuePriority2.peek with
  | some node =>
      simp only [hpeek] at h
      obtain rfl := Option.some.inj h
      have hready := ready_of_peek2 hpeek
      refine ⟨hbook.replace rfl trivial (fun hheld => ?_) hopening, hunset⟩
      exact absurd (hbook.idle_empty nofun hheld) hready
  | none =>
      simp only [hpeek] at h
      obtain rfl := Option.some.inj h
      exact ⟨hbook.pop rfl hopening, hunset⟩

theorem dequeue_sound {frame : Frame} (frame' : Frame) {node : QueueNode} {after : State}
    (hbook : Bookkeeping exited s.threadIDS s.isInitialized s.ready s.state
      s.context (frame :: s.stack)) (hbusy : ¬ frame.Idle)
    (hheld : frame.held = []) (hheld' : frame'.held = [node.thread])
    (hfits : frame'.Fits s.stack) (hids : after.threadIDS = s.threadIDS)
    (hinit : after.isInitialized = s.isInitialized)
    (hstate : after.state = s.state) (hcontext : after.context = s.context)
    (hstack : after.stack = s.stack)
    (hready : (node.thread :: after.ready).Perm s.ready) :
    Sound exited (after.push frame') := by
  obtain ⟨htrue, hclear⟩ := hbook.clear hbusy
  rw [htrue] at hbook hinit
  have hperm : (frame'.held ++ after.ready).Perm (frame.held ++ s.ready) := by
    rw [hheld, hheld']
    exact hready
  have hshuffled := hbook.shuffle hclear hperm hfits
  constructor
  · change Bookkeeping exited after.threadIDS after.isInitialized after.ready
      after.state after.context (frame' :: after.stack)
    rw [hids, hinit, hstate, hcontext, hstack]
    exact hshuffled
  · intro hfalse
    rw [show (after.push frame').isInitialized = after.isInitialized from rfl,
      hinit] at hfalse
    cases hfalse

theorem chosen_sound {first : Bool} {t : Nat}
    (hbook : Bookkeeping exited s.threadIDS s.isInitialized s.ready s.state
      s.context (.chosen first t :: s.stack))
    (h : s.advance (.chosen first t) = some next) :
    Sound exited next ∧ (s.current ≠ some t → next.Clear) := by
  simp only [advance] at h
  cases hcurrent : s.current with
  | none =>
      simp only [hcurrent] at h
      obtain ⟨hsound, hclear⟩ := setcontext_sound hbook id rfl h
      exact ⟨hsound, fun _ => hclear⟩
  | some temp =>
      simp only [hcurrent] at h
      split at h
      · obtain ⟨hsound, hclear⟩ := swapcontext_sound hbook id rfl h
        exact ⟨hsound, fun _ => hclear⟩
      · next hsame =>
          obtain ⟨⟨node, after⟩, hdequeue, rfl⟩ := Option.map_eq_some_iff.mp h
          refine ⟨?_, fun hne => absurd (congrArg some (not_not.mp hsame)) hne⟩
          cases first with
          | true =>
              obtain ⟨queue, rfl, hready, -⟩ := dequeue1_ready hdequeue
              exact dequeue_sound _ hbook id rfl rfl trivial rfl rfl rfl rfl rfl
                hready
          | false =>
              obtain ⟨queue, rfl, hready, -⟩ := dequeue2_ready hdequeue
              exact dequeue_sound _ hbook id rfl rfl trivial rfl rfl rfl rfl rfl
                hready

theorem dequeued_sound {first : Bool} {node : QueueNode}
    (hbook : Bookkeeping exited s.threadIDS s.isInitialized s.ready s.state
      s.context (.dequeued first node :: s.stack))
    (hunset : s.isInitialized = false → s.current = none)
    (h : s.advance (.dequeued first node) = some next) : Sound exited next := by
  obtain ⟨htrue, hclear⟩ := hbook.clear id
  have hactive : s.state node.thread = .active := by
    apply hbook.active
    rw [heldBy_cons]
    simp [Frame.held]
  simp only [advance, hactive, ne_eq, reduceCtorEq, not_false_eq_true, and_self,
    if_true] at h
  obtain rfl := Option.some.inj h
  rw [htrue] at hbook
  have hready := enqueue2_ready (s.setState node.thread .active)
    { node with priority := 2 }
  refine ⟨?_, hunset⟩
  exact htrue ▸ (hbook.setActive node.thread).shuffle hclear hready trivial

theorem requeued_sound {first : Bool}
    (hbook : Bookkeeping exited s.threadIDS s.isInitialized s.ready s.state
      s.context (.requeued first :: s.stack))
    (hunset : s.isInitialized = false → s.current = none)
    (h : s.advance (.requeued first) = some next) : Sound exited next := by
  cases first with
  | true =>
      simp only [advance] at h
      cases hpeek : s.queuePriority1.peek with
      | some node =>
          simp only [hpeek] at h
          obtain rfl := Option.some.inj h
          exact ⟨hbook.advance id rfl trivial, hunset⟩
      | none =>
          simp only [hpeek] at h
          obtain rfl := Option.some.inj h
          exact ⟨hbook.advance id rfl trivial, hunset⟩
  | false =>
      obtain ⟨node, -, rfl⟩ := Option.map_eq_some_iff.mp h
      exact ⟨hbook.advance id rfl trivial, hunset⟩

theorem picked_sound {t : Nat}
    (hbook : Bookkeeping exited s.threadIDS s.isInitialized s.ready s.state
      s.context (.picked t :: s.stack))
    (h : s.advance (.picked t) = some next) :
    Sound exited next ∧ next.Clear := by
  obtain ⟨temp, -, hswap⟩ := Option.bind_eq_some_iff.mp h
  exact swapcontext_sound (s := s.setState t .active) (hbook.setActive t) id rfl
    hswap

theorem create_sound {frame : Frame}
    (hframe : frame = .createEntry ∨ frame = .createEnqueued ∨
      frame = .createMain)
    (hbook : Bookkeeping exited s.threadIDS s.isInitialized s.ready s.state
      s.context (frame :: s.stack))
    (hunset : s.isInitialized = false → s.current = none)
    (h : s.advance frame = some next) : Sound exited next := by
  rcases hframe with rfl | rfl | rfl
  · obtain rfl := Option.some.inj h
    exact ⟨hbook.create (enqueue1_ready s ⟨s.threadIDS, 1⟩), hunset⟩
  · have hrest : s.stack = [] := hbook.fit.1
    simp only [advance] at h
    split at h
    · next hinit =>
        obtain rfl := Option.some.inj h
        refine ⟨hbook.replace rfl trivial (fun hheld => ?_) ?_, hunset⟩
        · rw [hinit, hrest] at hheld
          exact absurd rfl hheld
        · intro hfalse
          rw [hinit] at hfalse
          cases hfalse
    · next hinit =>
        obtain rfl := Option.some.inj h
        have hfalse : s.isInitialized = false := by simpa using hinit
        rw [hfalse] at hbook
        exact ⟨hbook.start, nofun⟩
  · obtain ⟨htrue, hclear⟩ := hbook.clear id
    obtain rfl := Option.some.inj h
    rw [htrue] at hbook
    refine ⟨?_, hunset⟩
    exact htrue ▸ hbook.shuffle hclear (enqueue1_ready s ⟨0, 1⟩) trivial

theorem exit_sound {frame : Frame}
    (hframe : frame = .exitEntry ∨ (∃ c head1, frame = .exitFirst c head1) ∨
      frame = .exitRemoved)
    (hbook : Bookkeeping exited s.threadIDS s.isInitialized s.ready s.state
      s.context (frame :: s.stack))
    (hunset : s.isInitialized = false → s.current = none)
    (h : s.advance frame = some next) : Sound exited next := by
  rcases hframe with rfl | ⟨c, head1, rfl⟩ | rfl
  · have hrest : s.stack = [] := hbook.fit.1
    obtain ⟨c, hc, rfl⟩ := Option.map_eq_some_iff.mp h
    cases hinit : s.isInitialized with
    | false =>
        rw [hunset hinit] at hc
        cases hc
    | true =>
        refine ⟨hbook.replace rfl trivial (fun hheld => ?_) ?_, hunset⟩
        · rw [hinit, hrest] at hheld
          exact absurd rfl hheld
        · exact hbook.opening_empty nofun
  · obtain rfl := Option.some.inj h
    exact ⟨hbook.advance id rfl trivial, hunset⟩
  · obtain rfl := Option.some.inj h
    exact ⟨hbook.advance id rfl trivial, fun _ => rfl⟩

theorem exitHeads_sound {c : Nat} {head1 head2 : Option Nat}
    (hbook : Bookkeeping exited s.threadIDS s.isInitialized s.ready s.state
      s.context (.exitHeads c head1 head2 :: s.stack))
    (hcaller : (if head1 = some c then s.queuePriority1.peek
      else if head2 ≠ none then s.queuePriority2.peek else none).map
        QueueNode.thread = some c)
    (h : s.advance (.exitHeads c head1 head2) = some next) :
    Sound exited next := by
  simp only [advance] at h
  split at h
  · next hfirst =>
      obtain ⟨⟨node, after⟩, hdequeue, rfl⟩ := Option.map_eq_some_iff.mp h
      obtain ⟨queue, rfl, hready, hpeek⟩ := dequeue1_ready hdequeue
      rw [if_pos hfirst, hpeek] at hcaller
      exact dequeue_sound (.exitDequeued c node) hbook id rfl rfl
        (Option.some.inj hcaller) rfl rfl rfl rfl rfl hready
  · next hfirst =>
      rw [if_neg hfirst] at hcaller
      split at h
      · next hsecond =>
          obtain ⟨⟨node, after⟩, hdequeue, rfl⟩ := Option.map_eq_some_iff.mp h
          obtain ⟨queue, rfl, hready, hpeek⟩ := dequeue2_ready hdequeue
          rw [if_pos hsecond, hpeek] at hcaller
          exact dequeue_sound (.exitDequeued c node) hbook id rfl rfl
            (Option.some.inj hcaller) rfl rfl rfl rfl rfl hready
      · next hsecond =>
          rw [if_neg hsecond] at hcaller
          cases hcaller

theorem advance_sound {frame : Frame}
    (hbook : Bookkeeping exited s.threadIDS s.isInitialized s.ready s.state
      s.context (frame :: s.stack))
    (hunset : s.isInitialized = false → s.current = none)
    (hcaller : s.TakesCaller frame) (h : s.advance frame = some next) :
    Sound (frame.exits exited) next ∧ (frame.Switches s.current → next.Clear) := by
  cases frame with
  | yieldEntry => exact ⟨yieldEntry_sound hbook hunset h, nofun⟩
  | firstEmpty => exact ⟨firstEmpty_sound hbook hunset h, nofun⟩
  | chosen first t => exact chosen_sound hbook h
  | dequeued first node => exact ⟨dequeued_sound hbook hunset h, nofun⟩
  | requeued first => exact ⟨requeued_sound hbook hunset h, nofun⟩
  | picked t =>
      obtain ⟨hsound, hclear⟩ := picked_sound hbook h
      exact ⟨hsound, fun _ => hclear⟩
  | createEntry => exact ⟨create_sound (Or.inl rfl) hbook hunset h, nofun⟩
  | createEnqueued =>
      exact ⟨create_sound (Or.inr (Or.inl rfl)) hbook hunset h, nofun⟩
  | createMain =>
      exact ⟨create_sound (Or.inr (Or.inr rfl)) hbook hunset h, nofun⟩
  | exitEntry => exact ⟨exit_sound (Or.inl rfl) hbook hunset h, nofun⟩
  | exitFirst c head1 =>
      exact ⟨exit_sound (Or.inr (Or.inl ⟨c, head1, rfl⟩)) hbook hunset h, nofun⟩
  | exitHeads c head1 head2 => exact ⟨exitHeads_sound hbook hcaller h, nofun⟩
  | exitDequeued c node =>
      obtain rfl := Option.some.inj h
      obtain ⟨htrue, -⟩ := hbook.clear id
      rw [htrue] at hbook
      refine ⟨⟨?_, hunset⟩, nofun⟩
      exact htrue ▸ hbook.complete
  | exitRemoved =>
      exact ⟨exit_sound (Or.inr (Or.inr rfl)) hbook hunset h, nofun⟩

end Advance

theorem call_sound {exited : List Nat} {s : State} (h : Sound exited s)
    (hstack : s.stack = []) (routine : Call) :
    Sound exited (s.push routine.entry) := by
  have hempty : unstarted s.isInitialized ++ heldBy s.stack ≠ [] →
      routine.entry.Idle ∧ s.ready = [] := by
    intro hheld
    refine ⟨by cases routine <;> trivial, ?_⟩
    apply Classical.byContradiction
    intro hready
    cases hinit : s.isInitialized with
    | true =>
        rw [hinit, hstack] at hheld
        exact hheld rfl
    | false =>
        have hopening := h.book.opening hinit hready
        rw [hstack] at hopening
        cases hopening
  have hfits : routine.entry.Fits s.stack := by
    rw [hstack]
    cases routine <;> trivial
  exact ⟨h.book.push (by cases routine <;> rfl) hfits hempty, h.unset⟩

/-- The step lemma. -/
theorem step_sound {exited : List Nat} {s next : State} (h : Sound exited s)
    {event : Event} (hsafe : s.Safe event) (hstep : s.step event = some next) :
    Sound (s.exits exited event) next ∧
      (event = .advance → s.Switches → next.Clear) := by
  cases event with
  | call routine =>
      simp only [step] at hstep
      cases hstack : s.stack with
      | cons frame rest => simp [hstack] at hstep
      | nil =>
          simp only [hstack] at hstep
          obtain rfl := Option.some.inj hstep
          exact ⟨call_sound h hstack routine, fun heq => Event.noConfusion heq⟩
  | deliver =>
      simp only [step] at hstep
      split at hstep
      · obtain rfl := Option.some.inj hstep
        refine ⟨⟨h.book.push rfl trivial fun hheld => ⟨trivial, ?_⟩, h.unset⟩,
          fun heq => Event.noConfusion heq⟩
        exact hsafe.resolve_left hheld
      · cases hstep
  | advance =>
      simp only [step] at hstep
      cases hstack : s.stack with
      | nil => simp [hstack] at hstep
      | cons frame rest =>
          simp only [hstack] at hstep
          simp only [Safe, hstack] at hsafe
          simp only [Switches, exits, hstack]
          obtain ⟨hsound, hclear⟩ := advance_sound
            (s := { s with stack := rest }) (hstack ▸ h.book) h.unset hsafe hstep
          exact ⟨hsound, fun _ => hclear⟩

theorem initial_sound : Sound [] initial where
  book :=
    { distinct := List.nodup_singleton 0
      members := by
        intro t
        change t ∈ [0] ↔ t < 1 ∧ t ∉ []
        simp
      exited_lt := nofun
      active := fun _ _ => rfl
      saved := nofun
      guarded := trivial
      fit := trivial
      opening := fun _ hready => absurd rfl hready }
  unset _ := rfl

/-- The run lemma. -/
theorem Reachable.sound {exited : List Nat} {s : State}
    (h : Reachable Safe exited s) : Sound exited s := by
  induction h with
  | initial => exact initial_sound
  | step event hreach hsafe hstep ih => exact (step_sound ih hsafe hstep).1

/-- In the runs whose events are safe, a thread that gets the processor finds
every unexited thread running or ready. -/
theorem safe_preemption_loses_none {exited : List Nat} {s next : State}
    (h : Reachable Safe exited s) (hsafe : s.Safe .advance)
    (hswitch : s.Switches) (hstep : s.step .advance = some next) :
    NoneLost (s.exits exited .advance) next := by
  obtain ⟨⟨hbook, -⟩, hclear⟩ := step_sound h.sound hsafe hstep
  obtain ⟨hinit, hheld⟩ := hclear rfl hswitch
  have hdistinct := hbook.distinct
  have hmembers := hbook.members
  rw [hinit, hheld] at hdistinct hmembers
  exact ⟨fun t hlt hnot => Or.inr ((hmembers t).mpr ⟨hlt, hnot⟩), hdistinct⟩

/-- A signal in the user code of the first thread: the nested yield requeues it. -/
theorem safe_preemption_loses_none_user_code :
    ∃ s next, initial.run Safe []
        [.call .create, .advance, .advance, .advance, .advance, .advance,
          .deliver, .advance, .advance, .advance, .advance] = some ([], s) ∧
      s.step .advance = some next ∧ NoneLost [] next := by
  refine ⟨_, _, rfl, rfl, ?_⟩
  exact safe_preemption_loses_none (Reachable.run Safe
    [.call .create, .advance, .advance, .advance, .advance, .advance,
      .deliver, .advance, .advance, .advance, .advance] .initial rfl) trivial trivial rfl

/-- A signal between the dequeue and the enqueue of a yield: the interrupted
thread gives the processor to the main thread and is in no queue. -/
theorem preemption_loses_thread :
    ¬ ∀ (exited : List Nat) (s next : State),
      Reachable (fun _ _ => True) exited s → s.Switches →
        s.step .advance = some next →
          NoneLost (s.exits exited .advance) next := by
  intro hclaim
  have hreach := Reachable.run (fun _ _ => True)
    [.call .create, .advance, .advance, .advance, .advance, .advance,
      .call .yield, .advance, .advance, .deliver, .advance] .initial rfl
  have hlost := (hclaim _ _ _ hreach nofun rfl).1 1 (by decide) (by decide)
  revert hlost
  decide

end State

end RutgersOS.Assignment1
