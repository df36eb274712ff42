import RutgersOS.Memory.Layouts
import RutgersOS.VSmymalloc.FirstFit

namespace RutgersOS.VSmymalloc

open RutgersOS.Memory
open RutgersOS.Memory.BoundaryTag (Region)

namespace Client

/-- The block list of the arena, before the first `mymalloc` that of the arena which it
sets up. -/
structure Layout (client : Client) (blocks : List Block) : Prop where
  heap : Heap ⟨⟨client.arena.heap, true⟩, client.live⟩ blocks
  unused : client.arena.isInitialized = false → client.live = []

theorem layout_of_initialized {client : Client} {blocks : List Block}
    (hinit : client.arena.isInitialized = true) (h : Heap client blocks) :
    client.Layout blocks := by
  obtain ⟨⟨myBlock, init⟩, live⟩ := client
  obtain rfl : init = true := hinit
  refine ⟨h, fun hfalse => ?_⟩
  cases hfalse

theorem Layout.initialized {client : Client} {blocks : List Block}
    (h : client.Layout blocks) (hinit : client.arena.isInitialized = true) :
    Heap client blocks := by
  obtain ⟨⟨myBlock, init⟩, live⟩ := client
  obtain rfl : init = true := hinit
  exact h.heap

theorem Layout.isInitialized {client : Client} {blocks : List Block}
    (h : client.Layout blocks) {p : Int} (hlive : client.Live p) :
    client.arena.isInitialized = true := by
  cases hinit : client.arena.isInitialized with
  | true => rfl
  | false =>
      rw [Live, h.unused hinit] at hlive
      exact absurd hlive List.not_mem_nil

theorem Reachable.layout {client : Client} (h : Reachable client) :
    ∃ blocks, client.Layout blocks := by
  obtain ⟨blocks, hheap⟩ := h.blocks
  refine ⟨blocks, hheap, fun hinit => ?_⟩
  rcases h.sound with ⟨-, hlive⟩ | ⟨htrue, -⟩
  · exact hlive
  · rw [hinit] at htrue
    cases htrue

structure Evolves (client next : Client) (op : Op) (blocks after : List Block) : Prop where
  layout : next.Layout after
  kept : ∀ p, client.Live p → op ≠ .free (some p) →
    next.Live p ∧ allocatedAt 4 after p = allocatedAt 4 blocks p

theorem malloc_evolves {client next : Client} {blocks : List Block} {size : Nat}
    (h : client.Layout blocks) (hstep : client.step (.malloc size) = some next) :
    ∃ after, Evolves client next (.malloc size) blocks after := by
  obtain ⟨⟨arena, answer⟩, hmalloc, rfl⟩ := Option.map_eq_some_iff.mp hstep
  rw [mymalloc_heap] at hmalloc
  rcases mymalloc_cases h.heap.region h.heap.extent size with
    ⟨hnone, -⟩ | ⟨left, block, right, placed, rfl, hfree, -, hplaced, hsome⟩
  · obtain ⟨rfl, rfl⟩ := Prod.mk.inj (Option.some.inj (hnone.symm.trans hmalloc))
    exact ⟨blocks, layout_of_initialized rfl h.heap, fun p hp _ => ⟨hp, rfl⟩⟩
  · obtain ⟨rfl, rfl⟩ := Prod.mk.inj (Option.some.inj (hsome.symm.trans hmalloc))
    refine ⟨_, layout_of_initialized rfl (h.heap.malloc hfree hplaced), fun p hp _ => ?_⟩
    obtain ⟨hold, hother, -⟩ := Allocations.allocatedAt_placed hfree hplaced 4 left right p
    refine ⟨List.mem_cons_of_mem _ hp, hother ?_⟩
    rintro rfl
    have hsome := (h.heap.live_iff _).mpr hp
    rw [hold] at hsome
    cases hsome

theorem live_filter {client : Client} {p : Int} {ptr : Option Int} (hp : client.Live p)
    (hne : some p ≠ ptr) :
    p ∈ (client.live.filter fun entry => some entry.1 ≠ ptr).map Prod.fst := by
  obtain ⟨entry, hmem, rfl⟩ := List.mem_map.mp hp
  exact List.mem_map.mpr ⟨entry, List.mem_filter.mpr ⟨hmem, by simpa using hne⟩, rfl⟩

theorem free_evolves {client next : Client} {blocks : List Block} {ptr : Option Int}
    (h : client.Layout blocks) (hallowed : client.Allowed (.free ptr))
    (hstep : client.step (.free ptr) = some next) :
    ∃ after, Evolves client next (.free ptr) blocks after := by
  obtain rfl := Option.some.inj hstep
  cases ptr with
  | none =>
      have hsame : client.live.filter (fun entry => some entry.1 ≠ none) = client.live :=
        List.filter_eq_self.mpr fun entry _ => by simp
      refine ⟨blocks, ?_, fun p hp _ => ⟨live_filter hp (Option.some_ne_none p), rfl⟩⟩
      rw [hsame]
      exact h
  | some q =>
      have hinit := h.isInitialized hallowed
      obtain ⟨left, block, right, rfl, -, rfl, hlow, hhigh⟩ := h.heap.live_block hallowed
      have hmin := block.minimal
      have hreleased := (h.initialized hinit).release client.arena.isInitialized
      rw [← myfree_eq (by omega) (by omega)] at hreleased
      refine ⟨_, layout_of_initialized hinit hreleased, fun p hp hkeeps => ?_⟩
      have hne : p ≠ 4 + (total left : Int) + 4 := by
        rintro rfl
        exact hkeeps rfl
      refine ⟨live_filter hp fun heq => hne (Option.some.inj heq), ?_⟩
      rw [allocatedAt_mergeFree, allocatedAt_other block.free_size left right hne]

theorem step_evolves {client next : Client} {blocks : List Block} {op : Op}
    (h : client.Layout blocks) (hallowed : client.Allowed op)
    (hstep : client.step op = some next) : ∃ after, Evolves client next op blocks after := by
  cases op with
  | malloc size => exact malloc_evolves h hstep
  | free ptr => exact free_evolves h hallowed hstep
  | write ptr offset byte =>
      obtain rfl := Option.some.inj hstep
      obtain ⟨size, hmem, hoffset⟩ := hallowed
      have hinit := h.isInitialized (List.mem_map.mpr ⟨_, hmem, rfl⟩)
      exact ⟨blocks, layout_of_initialized hinit
        ((h.initialized hinit).write hmem hoffset byte), fun p hp _ => ⟨hp, rfl⟩⟩

/-- A run that frees nothing of what is live at its start. -/
inductive Sparing (first : Client) : Client → Prop
  | start : Sparing first first
  | step {client next : Client} (op : Op) : Sparing first client → client.Allowed op →
      (∀ p, first.Live p → op ≠ .free (some p)) → client.step op = some next →
        Sparing first next

namespace Sparing

variable {first client : Client}

theorem reachable (h : Sparing first client) (hfirst : Reachable first) :
    Reachable client := by
  induction h with
  | start => exact hfirst
  | step op _ hallowed _ hstep ih => exact .step op ih hallowed hstep

theorem kept (h : Sparing first client) {blocks : List Block} (hfirst : first.Layout blocks) :
    ∃ after, client.Layout after ∧ ∀ p, first.Live p →
      client.Live p ∧ allocatedAt 4 after p = allocatedAt 4 blocks p := by
  induction h with
  | start => exact ⟨blocks, hfirst, fun p hp => ⟨hp, rfl⟩⟩
  | step op _ hallowed hspared hstep ih =>
      obtain ⟨middle, hmiddle, hkept⟩ := ih
      obtain ⟨after, hevolves⟩ := step_evolves hmiddle hallowed hstep
      refine ⟨after, hevolves.layout, fun p hp => ?_⟩
      obtain ⟨hlive, hroom⟩ := hkept p hp
      obtain ⟨hlive', hroom'⟩ := hevolves.kept p hlive (hspared p hp)
      exact ⟨hlive', hroom'.trans hroom⟩

/-- Once it has freed what it took, the arena has the blocks of its start again. -/
theorem layout {last : Client} (h : Sparing first last) {blocks : List Block}
    (hfirst : first.Layout blocks) (hfreed : ∀ p, last.Live p → first.Live p) :
    last.Layout blocks := by
  obtain ⟨after, hlast, hkept⟩ := h.kept hfirst
  have hpayloads : ∀ p, allocatedAt 4 blocks p = allocatedAt 4 after p := by
    intro p
    rcases Classical.em (first.Live p) with hlive | hdead
    · exact (hkept p hlive).2.symm
    · have hbefore : allocatedAt 4 blocks p = none := by
        cases hp : allocatedAt 4 blocks p with
        | none => rfl
        | some room => exact absurd (hfirst.heap.alive p room hp) hdead
      have hafter : allocatedAt 4 after p = none := by
        cases hp : allocatedAt 4 after p with
        | none => rfl
        | some room => exact absurd (hfreed p (hlast.heap.alive p room hp)) hdead
      rw [hbefore, hafter]
  obtain rfl := hfirst.heap.merged.eq_of_payloads hlast.heap.merged
    (hfirst.heap.extent.trans hlast.heap.extent.symm) hpayloads
  exact hlast

end Sparing

theorem Layout.region_iff {first last : Client} {blocks : List Block}
    (hfirst : first.Layout blocks) (hlast : last.Layout blocks) (others : List Block) :
    Region tagCodec first.arena.heap 4 others ↔ Region tagCodec last.arena.heap 4 others := by
  constructor
  · intro hothers
    obtain rfl := hfirst.heap.region.unique hothers
    exact hlast.heap.region
  · intro hothers
    obtain rfl := hlast.heap.region.unique hothers
    exact hfirst.heap.region

/-- A run that has freed what it took leaves the block list of its start. -/
theorem restored {first last : Client} (h : Reachable first) (hrun : Sparing first last)
    (hfreed : ∀ p, last.Live p → first.Live p) :
    (∃ blocks, Region tagCodec first.arena.heap 4 blocks) ∧
      ∀ blocks, Region tagCodec first.arena.heap 4 blocks ↔
        Region tagCodec last.arena.heap 4 blocks := by
  obtain ⟨blocks, hfirst⟩ := h.layout
  exact ⟨⟨blocks, hfirst.heap.region⟩, hfirst.region_iff (hrun.layout hfirst hfreed)⟩

theorem restored_written : ∃ client mid last,
    Client.step ⟨⟨fun _ => 0, false⟩, []⟩ (.malloc 8) = some client ∧
      client.step (.write 8 3 7) = some mid ∧ mid.step (.free (some 8)) = some last ∧
        Region tagCodec last.arena.heap 4 [wholeArena] := by
  obtain ⟨client, hstep, -, hlive, -⟩ := first_malloc
  have hwritten : client.Allowed (.write 8 3 7) := ⟨8, by simp [hlive], by decide⟩
  have hmember : client.Live 8 := by
    rw [Live, hlive]
    exact List.mem_cons_self
  have hunused : ∀ op : Op, ∀ p, Client.Live ⟨⟨fun _ => 0, false⟩, []⟩ p →
      op ≠ .free (some p) :=
    fun _ _ hp => absurd hp List.not_mem_nil
  have hrun := ((Sparing.start.step (.malloc 8) trivial (hunused _) hstep).step
    (.write 8 3 7) hwritten (hunused _) rfl).step (.free (some 8)) hmember (hunused _) rfl
  refine ⟨client, _, _, hstep, rfl, rfl, ?_⟩
  refine ((restored (.uninitialised fun _ => 0) hrun ?_).2 [wholeArena]).mp
    (initializeHeap_heap fun _ => 0).region
  intro p hp
  have hnone : client.live.filter (fun entry => some entry.1 ≠ some 8) = [] := by
    rw [hlive]
    rfl
  change p ∈ (client.live.filter fun entry => some entry.1 ≠ some 8).map Prod.fst at hp
  rw [hnone] at hp
  exact hp

end Client

end RutgersOS.VSmymalloc
