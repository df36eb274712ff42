import RutgersOS.Memory.Chains
import RutgersOS.Pthread.Queue

namespace RutgersOS.Pthread

open RutgersOS.Memory

/-! `enqueue`, `dequeue` and `peek` on the nodes in memory.  `none` stands for the
access to a node that is not allocated and for a loop that does not end. -/

structure LinkedQueue (Ptr : Type u) where
  tail : Option Ptr
  size : Int

namespace LinkedQueue

variable {Ptr α : Type u}

/-- The loop of `peek`.  It visits no node twice, unless it goes round for ever. -/
def seekLast (nodes : Cells Ptr α) (iter : Ptr) : Nat → Option Ptr
  | 0 => none
  | n + 1 => do
      let (_, next) ← nodes.cell iter
      match next with
      | none => some iter
      | some after => seekLast nodes after n

def peek (nodes : Cells Ptr α) (queue : LinkedQueue Ptr) : Option (Option Ptr) :=
  match queue.tail with
  | none => some none
  | some tail => (seekLast nodes tail nodes.count).map some

/-- `while (iter->next) { prev = iter; iter = iter->next; }` -/
def seek (nodes : Cells Ptr α) (prev : Option Ptr) (iter : Ptr) :
    Nat → Option (Option Ptr × Ptr)
  | 0 => none
  | n + 1 => do
      let (_, next) ← nodes.cell iter
      match next with
      | none => some (prev, iter)
      | some after => seek nodes (some iter) after n

variable [DecidableEq Ptr]

def enqueue (nodes : Cells Ptr α) (newNode : Ptr) (queue : LinkedQueue Ptr) :
    Option (Cells Ptr α × LinkedQueue Ptr) :=
  match queue.tail with
  | none => do
      let nodes ← nodes.link newNode none
      some (nodes, ⟨some newNode, queue.size + 1⟩)
  | some tail => do
      let nodes ← nodes.link newNode (some tail)
      some (nodes, ⟨some newNode, queue.size + 1⟩)

def dequeue (nodes : Cells Ptr α) (queue : LinkedQueue Ptr) :
    Option (Option Ptr × Cells Ptr α × LinkedQueue Ptr) :=
  match queue.tail with
  | none => some (none, nodes, queue)
  | some tail => do
      let (prev, iter) ← seek nodes none tail nodes.count
      match prev with
      | some prev => do
          let nodes ← nodes.link prev none
          some (some iter, nodes, ⟨queue.tail, queue.size - 1⟩)
      | none => some (some iter, nodes, ⟨none, queue.size - 1⟩)

theorem enqueue_frame {nodes after : Cells Ptr α} {queue queue' : LinkedQueue Ptr} {p q : Ptr}
    (h : enqueue nodes p queue = some (after, queue')) (hne : q ≠ p) :
    after.cell q = nodes.cell q := by
  have hlink : nodes.link p queue.tail = some after := by
    rw [enqueue] at h
    cases htail : queue.tail with
    | none =>
        rw [htail] at h
        obtain ⟨linked, hlinked, heq⟩ := Option.bind_eq_some_iff.mp h
        obtain ⟨rfl, -⟩ := Prod.mk.inj (Option.some.inj heq)
        exact hlinked
    | some tail =>
        rw [htail] at h
        obtain ⟨linked, hlinked, heq⟩ := Option.bind_eq_some_iff.mp h
        obtain ⟨rfl, -⟩ := Prod.mk.inj (Option.some.inj heq)
        exact hlinked
  obtain ⟨old, -, rfl⟩ := Option.map_eq_some_iff.mp hlink
  exact Function.update_of_ne hne _ _

section Loops

omit [DecidableEq Ptr]

variable {nodes : Cells Ptr α} {p : Ptr} {x : α}

theorem seekLast_spec (front : List (Ptr × α)) : ∀ {iter : Ptr} {n : Nat},
    Chain nodes.cell (some iter) (front ++ [(p, x)]) → front.length < n →
      seekLast nodes iter n = some p := by
  induction front with
  | nil =>
      intro iter n h hlt
      obtain ⟨n, rfl⟩ := Nat.exists_eq_add_of_lt hlt
      cases h with
      | cons hcell hrest =>
          obtain rfl := hrest.head_eq_none
          rw [seekLast, hcell]
          rfl
  | cons entry front ih =>
      intro iter n h hlt
      obtain ⟨m, rfl⟩ := Nat.exists_eq_add_of_lt hlt
      cases h with
      | cons hcell hrest =>
          obtain ⟨after, rfl⟩ := hrest.head_ne_none
          rw [seekLast, hcell]
          refine ih hrest ?_
          rw [List.length_cons]
          omega

theorem seek_spec (front : List (Ptr × α)) : ∀ {prev : Option Ptr} {iter : Ptr} {n : Nat},
    Chain nodes.cell (some iter) (front ++ [(p, x)]) → front.length < n →
      seek nodes prev iter n = some ((front.getLast?.map Prod.fst).or prev, p) := by
  induction front with
  | nil =>
      intro prev iter n h hlt
      obtain ⟨n, rfl⟩ := Nat.exists_eq_add_of_lt hlt
      cases h with
      | cons hcell hrest =>
          obtain rfl := hrest.head_eq_none
          rw [seek, hcell]
          rfl
  | cons entry front ih =>
      intro prev iter n h hlt
      obtain ⟨m, rfl⟩ := Nat.exists_eq_add_of_lt hlt
      cases h with
      | @cons q y _ _ hcell hrest =>
          obtain ⟨after, rfl⟩ := hrest.head_ne_none
          have hlast : (((iter, y) :: front).getLast?.map Prod.fst).or prev =
              (front.getLast?.map Prod.fst).or (some iter) := by
            rw [List.getLast?_cons]
            cases front.getLast? with
            | none => rfl
            | some last => rfl
          rw [hlast, seek, hcell]
          refine ih hrest ?_
          rw [List.length_cons]
          omega

end Loops

/-- The queue's nodes are `list`, and their values are those of `model`. -/
structure Lists (nodes : Cells Ptr α) (queue : LinkedQueue Ptr) (model : Queue α)
    (list : List (Ptr × α)) : Prop where
  chain : Chain nodes.cell queue.tail list
  values : list.map Prod.snd = model.tail
  size : queue.size = model.size

def Share (nodes : Cells Ptr α) (queue1 queue2 : LinkedQueue Ptr) (model1 model2 : Queue α)
    (loose : List (Ptr × α)) : Prop :=
  ∃ list1 list2, Lists nodes queue1 model1 list1 ∧ Lists nodes queue2 model2 list2 ∧
    Holds nodes (loose ++ (list1 ++ list2))

namespace Share

variable {nodes : Cells Ptr α} {queue1 queue2 : LinkedQueue Ptr} {model1 model2 : Queue α}
  {loose : List (Ptr × α)} {p : Ptr} {x : α}

omit [DecidableEq Ptr]

theorem swap (h : Share nodes queue1 queue2 model1 model2 loose) :
    Share nodes queue2 queue1 model2 model1 loose := by
  obtain ⟨list1, list2, hlist1, hlist2, hholds⟩ := h
  exact ⟨list2, list1, hlist2, hlist1, hholds.perm (List.perm_append_comm.append_left loose)⟩

theorem value (h : Share nodes queue1 queue2 model1 model2 ((p, x) :: loose)) :
    ∃ next, nodes.cell p = some (x, next) := by
  obtain ⟨list1, list2, -, -, hholds⟩ := h
  exact hholds.value p x List.mem_cons_self

theorem peek (h : Share nodes queue1 queue2 model1 model2 loose) :
    ∃ top, queue1.peek nodes = some top ∧
      Option.Rel (fun p x => ∃ next, nodes.cell p = some (x, next)) top model1.peek := by
  obtain ⟨list1, list2, hlist1, -, hholds⟩ := h
  rcases List.eq_nil_or_concat' list1 with rfl | ⟨front, ⟨p, x⟩, rfl⟩
  · refine ⟨none, ?_, ?_⟩
    · rw [LinkedQueue.peek, hlist1.chain.head_eq_none]
    · rw [Queue.peek, ← hlist1.values]
      exact .none
  · obtain ⟨tail, htail⟩ := hlist1.chain.head_ne_none
    have hchain := hlist1.chain
    rw [htail] at hchain
    have hlt : front.length < nodes.count := by
      rw [hholds.count, List.length_append, List.length_append, List.length_append,
        List.length_singleton]
      omega
    refine ⟨some p, ?_, ?_⟩
    · rw [LinkedQueue.peek, htail]
      exact congrArg (Option.map some) (seekLast_spec front hchain hlt)
    · rw [Queue.peek, ← hlist1.values, List.map_append, List.map_singleton,
        List.getLast?_concat]
      exact .some ⟨none, hchain.last front⟩

variable [DecidableEq Ptr]

theorem change {nodes' : Cells Ptr α} {loose' : List (Ptr × α)} {value : Option (α × Option Ptr)}
    (h : Share nodes queue1 queue2 model1 model2 loose)
    (hcell : nodes'.cell = Function.update nodes.cell p value)
    (hout : ∀ list, Holds nodes (loose ++ list) → p ∉ list.map Prod.fst)
    (hholds : ∀ list, Holds nodes (loose ++ list) → Holds nodes' (loose' ++ list)) :
    Share nodes' queue1 queue2 model1 model2 loose' := by
  obtain ⟨list1, list2, hlist1, hlist2, hold⟩ := h
  have hnot := hout _ hold
  rw [List.map_append, List.mem_append, not_or] at hnot
  refine ⟨list1, list2, ⟨?_, hlist1.values, hlist1.size⟩, ⟨?_, hlist2.values, hlist2.size⟩,
    hholds _ hold⟩
  · rw [hcell]
    exact hlist1.chain.update hnot.1 value
  · rw [hcell]
    exact hlist2.chain.update hnot.2 value

theorem allocate (h : Share nodes queue1 queue2 model1 model2 loose)
    (hfree : nodes.cell p = none) (x : α) (next : Option Ptr) :
    Share (nodes.allocate p x next) queue1 queue2 model1 model2 ((p, x) :: loose) := by
  refine h.change rfl (fun list hholds hmem => ?_) fun list hholds => hholds.allocate hfree x next
  refine (hholds.live p).mpr ?_ hfree
  rw [List.map_append]
  exact List.mem_append_right _ hmem

omit [DecidableEq Ptr] in
theorem distinct {list : List (Ptr × α)} (h : Holds nodes ((p, x) :: loose ++ list)) :
    p ∉ list.map Prod.fst := by
  have hdistinct := h.distinct
  rw [List.cons_append, List.map_cons, List.nodup_cons, List.map_append, List.mem_append,
    not_or] at hdistinct
  exact hdistinct.1.2

theorem write (h : Share nodes queue1 queue2 model1 model2 ((p, x) :: loose)) (y : α) :
    ∃ after, nodes.write p y = some after ∧
      Share after queue1 queue2 model1 model2 ((p, y) :: loose) := by
  obtain ⟨next, hp⟩ := h.value
  refine ⟨_, congrArg (Option.map _) hp, h.change rfl (fun _ => distinct) ?_⟩
  intro list hholds
  obtain ⟨after, _, hwrite, -, -, hafter⟩ := hholds.write y
  rw [Cells.write, hp] at hwrite
  exact Option.some.inj hwrite ▸ hafter

theorem release (h : Share nodes queue1 queue2 model1 model2 ((p, x) :: loose)) :
    ∃ after, nodes.release p = some after ∧
      Share after queue1 queue2 model1 model2 loose := by
  obtain ⟨next, hp⟩ := h.value
  refine ⟨_, congrArg (Option.map _) hp, h.change rfl (fun _ => distinct) ?_⟩
  intro list hholds
  obtain ⟨after, hrelease, -, hafter⟩ := hholds.release
  rw [Cells.release, hp] at hrelease
  exact Option.some.inj hrelease ▸ hafter

theorem enqueue (h : Share nodes queue1 queue2 model1 model2 ((p, x) :: loose)) :
    ∃ after queue, queue1.enqueue nodes p = some (after, queue) ∧
      Share after queue queue2 (model1.enqueue x) model2 loose := by
  obtain ⟨list1, list2, hlist1, hlist2, hholds⟩ := h
  have hnot := distinct hholds
  rw [List.map_append, List.mem_append, not_or] at hnot
  obtain ⟨after, hlink, hcell, hafter⟩ :=
    hholds.link (p := p) (x := x) (List.mem_append_left _ List.mem_cons_self) queue1.tail
  refine ⟨after, ⟨some p, queue1.size + 1⟩, ?_, (p, x) :: list1, list2, ⟨?_, ?_, ?_⟩,
    ⟨?_, hlist2.values, hlist2.size⟩, hafter.perm ?_⟩
  · rw [LinkedQueue.enqueue]
    cases htail : queue1.tail with
    | none => simp [← htail, hlink]
    | some tail => simp [← htail, hlink]
  · rw [hcell]
    exact hlist1.chain.push hnot.1 x
  · rw [List.map_cons, hlist1.values]
    rfl
  · exact congrArg (· + 1) hlist1.size
  · rw [hcell]
    exact hlist2.chain.update hnot.2 _
  · exact List.perm_middle

theorem dequeue (h : Share nodes queue1 queue2 model1 model2 loose) {model : Queue α}
    (hmodel : model1.dequeue = some (x, model)) :
    ∃ p after queue, queue1.dequeue nodes = some (some p, after, queue) ∧
      Share after queue queue2 model model2 ((p, x) :: loose) := by
  obtain ⟨list1, list2, hlist1, hlist2, hholds⟩ := h
  rw [Queue.dequeue, ← hlist1.values] at hmodel
  rcases List.eq_nil_or_concat' list1 with rfl | ⟨front, ⟨p, y⟩, rfl⟩
  · cases hmodel
  rw [List.map_append, List.map_singleton, List.getLast?_concat, List.dropLast_concat] at hmodel
  obtain ⟨rfl, rfl⟩ := Prod.mk.inj (Option.some.inj hmodel)
  obtain ⟨tail, htail⟩ := hlist1.chain.head_ne_none
  have hchain := hlist1.chain
  rw [htail] at hchain
  have hlt : front.length < nodes.count := by
    rw [hholds.count, List.length_append, List.length_append, List.length_append,
      List.length_singleton]
    omega
  have hseek : seek nodes none tail nodes.count =
      some ((front.getLast?.map Prod.fst).or none, p) := seek_spec front hchain hlt
  have hmoved : ((p, y) :: loose ++ (front ++ list2)).Perm
      (loose ++ (front ++ [(p, y)] ++ list2)) := by
    rw [List.append_assoc, List.singleton_append, ← List.append_assoc, ← List.append_assoc]
    exact List.perm_middle.symm
  have hafter := hholds.perm hmoved
  rcases List.eq_nil_or_concat' front with rfl | ⟨before, ⟨q, z⟩, rfl⟩
  · -- the only node
    refine ⟨p, nodes, ⟨none, queue1.size - 1⟩, ?_, [], list2, ⟨.nil, rfl, ?_⟩, hlist2, hafter⟩
    · simp [LinkedQueue.dequeue, htail, hseek]
    · exact congrArg (· - 1) hlist1.size
  · -- the node before it becomes the last one
    have hdistinct := hafter.distinct
    rw [List.map_append] at hdistinct
    have hlists := hdistinct.of_append_right
    rw [List.map_append] at hlists
    have hq : q ∉ list2.map Prod.fst :=
      List.disjoint_of_nodup_append hlists (List.mem_map.mpr ⟨(q, z), by simp, rfl⟩)
    obtain ⟨after, hlink, hcell, hlinked⟩ :=
      hafter.link (p := q) (x := z) (by simp) none
    refine ⟨p, after, ⟨some tail, queue1.size - 1⟩, ?_, before ++ [(q, z)], list2,
      ⟨?_, rfl, ?_⟩, ⟨?_, hlist2.values, hlist2.size⟩, hlinked⟩
    · simp [LinkedQueue.dequeue, htail, hseek, hlink]
    · rw [hcell]
      rw [List.append_assoc] at hchain
      exact hchain.cut before hlists.of_append_left
    · exact congrArg (· - 1) hlist1.size
    · rw [hcell]
      exact hlist2.chain.update hq _

end Share

end LinkedQueue

end RutgersOS.Pthread
