import Mathlib.Data.List.Rotate
import RutgersOS.Assignment2.ReadyQueues

namespace RutgersOS.Assignment2.Scheduler

open RutgersOS.Pthread

def yields (s : Scheduler) : Nat → Option Scheduler
  | 0 => some s
  | k + 1 => do
      let (s, _) ← s.myPthreadYield
      s.yields k

/-- A yield turns the list of the ready threads by one. -/
theorem yield_turns {exited : List Nat} {s : Scheduler} (h : Settled exited s)
    (hready : s.ready ≠ []) :
    ∃ next switch, s.myPthreadYield = some (next, switch) ∧ Settled exited next ∧
      next.ready = s.ready.rotate 1 := by
  obtain ⟨node, rest, hnodes⟩ := List.exists_cons_of_ne_nil
    (fun hnil : s.nodes = [] => hready (congrArg (List.map QueueNode.thread) hnil))
  have hlist : s.ready = node.thread :: rest.map QueueNode.thread := by
    rw [ready, hnodes, List.map_cons]
  have hcurrent : s.current = some node.thread := by
    rw [h.running, hlist, List.head?_cons]
  obtain ⟨next, t, hyield, -, hrotated⟩ :=
    yield_rotate hnodes hcurrent h.consistent.node_active
  have hturned : next.ready = s.ready.rotate 1 := by
    rw [hlist, List.rotate_cons_succ, List.rotate_zero, ready, hrotated.nodes, List.map_append]
    rfl
  have hperm : next.ready.Perm s.ready := by
    rw [hturned]
    exact List.rotate_perm s.ready 1
  have hconsistent := h.consistent.reorder (hrotated.counted1 h.consistent.counted1)
    (hrotated.counted2 h.consistent.counted2) hperm hrotated.threads hrotated.threadIDS
    hrotated.mainEnqueued
  exact ⟨next, _, hyield, ⟨hconsistent, hrotated.current⟩, hturned⟩

theorem yields_turn {exited : List Nat} (k : Nat) : ∀ {s : Scheduler}, Settled exited s →
    s.ready ≠ [] → ∃ next, s.yields k = some next ∧ Settled exited next ∧
      next.ready = s.ready.rotate k := by
  induction k with
  | zero => exact fun h _ => ⟨_, rfl, h, (List.rotate_zero _).symm⟩
  | succ k ih =>
      intro s h hready
      obtain ⟨mid, switch, hyield, hsettled, hturned⟩ := yield_turns h hready
      have hready' : mid.ready ≠ [] := by
        rw [hturned]
        exact fun hnil => hready (List.rotate_eq_nil_iff.mp hnil)
      obtain ⟨next, hnext, hsettled', hturned'⟩ := ih hsettled hready'
      refine ⟨next, ?_, hsettled', ?_⟩
      · rw [yields, hyield]
        exact hnext
      · rw [hturned', hturned, List.rotate_rotate, Nat.add_comm]

/-- The threads of both queues run in turn, in the order of the queues. -/
theorem round_robin {exited : List Nat} {s : Scheduler} (h : Reachable exited s)
    (hready : 1 ≤ s.ready.length) :
    (∀ k, ∃ next, s.yields k = some next ∧
        next.current = s.ready[k % s.ready.length]?) ∧
      ∀ t ∈ s.ready, ∃! k, k < s.ready.length ∧
        ∃ next, s.yields k = some next ∧ next.current = some t := by
  have hsettled := h.settled
  have hnonempty : s.ready ≠ [] := List.ne_nil_of_length_pos hready
  have hruns : ∀ k, ∃ next, s.yields k = some next ∧
      next.current = s.ready[k % s.ready.length]? := by
    intro k
    obtain ⟨next, hnext, hsettled', hturned⟩ := yields_turn k hsettled hnonempty
    refine ⟨next, hnext, ?_⟩
    rw [hsettled'.running, hturned, ← List.rotate_mod,
      List.head?_rotate (Nat.mod_lt k hready)]
  refine ⟨hruns, fun t ht => ?_⟩
  obtain ⟨i, hi, hget⟩ := List.mem_iff_getElem.mp ht
  refine ⟨i, ⟨hi, ?_⟩, ?_⟩
  · obtain ⟨next, hnext, hcurrent⟩ := hruns i
    refine ⟨next, hnext, ?_⟩
    rw [hcurrent, Nat.mod_eq_of_lt hi, List.getElem?_eq_getElem hi, hget]
  · rintro k ⟨hk, next, hnext, hcurrent⟩
    obtain ⟨other, hother, hrunning⟩ := hruns k
    obtain rfl := Option.some.inj (hnext.symm.trans hother)
    rw [hcurrent, Nat.mod_eq_of_lt hk, List.getElem?_eq_getElem hk] at hrunning
    apply hsettled.consistent.distinct.getElem_inj_iff.mp
    rw [hget]
    exact (Option.some.inj hrunning).symm

/-- After main created a thread, main and the thread run in turn. -/
theorem round_robin_pair : ∃ s, (initializeScheduler 5).step (.create 7) = some s ∧
    s.ready = [1, 0] ∧ ∀ k, ∃ next, s.yields k = some next ∧
      next.current = [1, 0][k % 2]? := by
  obtain ⟨s, hs⟩ : ∃ s, (initializeScheduler 5).step (.create 7) = some s := ⟨_, rfl⟩
  have hready : s.ready = [1, 0] := by
    obtain rfl := Option.some.inj hs
    rfl
  refine ⟨s, hs, hready, fun k => ?_⟩
  have hlength : s.ready.length = 2 := by
    rw [hready]
    rfl
  obtain ⟨next, hnext, hcurrent⟩ :=
    (round_robin (.create 5 7 hs) (by rw [hlength]; decide)).1 k
  rw [hlength, hready] at hcurrent
  exact ⟨next, hnext, hcurrent⟩

end RutgersOS.Assignment2.Scheduler
