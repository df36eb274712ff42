import RutgersOS.VSmymalloc.Clients

namespace RutgersOS.VSmymalloc

open RutgersOS.Memory
open RutgersOS.Memory.BoundaryTag (Region)

/-- The arena as the first `mymalloc` finds it after its initialisation. -/
def Arena.heap (arena : Arena) : Bytes :=
  if arena.isInitialized then arena.myBlock else initializeHeap arena.myBlock

theorem mymalloc_heap (arena : Arena) (size : Nat) :
    mymalloc arena size = mymalloc ⟨arena.heap, true⟩ size := by
  obtain ⟨myBlock, init⟩ := arena
  cases init with
  | true => rfl
  | false => exact mymalloc_uninitialised myBlock size

theorem Client.Reachable.blocks {client : Client} (h : Client.Reachable client) :
    ∃ blocks, Heap ⟨⟨client.arena.heap, true⟩, client.live⟩ blocks := by
  obtain ⟨⟨myBlock, init⟩, live⟩ := client
  cases h.sound with
  | inl hnew =>
      obtain ⟨rfl, rfl⟩ : init = false ∧ live = [] := hnew
      exact ⟨_, initializeHeap_heap myBlock⟩
  | inr hsome =>
      obtain ⟨rfl, blocks, heap⟩ : init = true ∧ _ := hsome
      exact ⟨blocks, heap⟩

structure Served (memory : Bytes) (blocks : List Block) (size : Nat) (arena : Arena)
    (answer : Option Int) : Prop where
  initialized : arena.isInitialized = true
  null_iff : answer = none ↔ size = 0 ∨ 5000 < size ∨
    ∀ block ∈ blocks, block.allocated = true ∨ block.size < extendedSize size
  unchanged : answer = none → arena.myBlock = memory
  placed : ∀ ptr, answer = some ptr → ∃ after,
    FirstFit 4 (extendedSize size) blocks ptr after ∧ Region tagCodec arena.myBlock 4 after

/-- First fit is sound and complete, on the one block list that the arena has. -/
theorem first_fit {client : Client} (h : Client.Reachable client) (size : Nat) :
    (∃ blocks, Region tagCodec client.arena.heap 4 blocks) ∧
      ∀ blocks, Region tagCodec client.arena.heap 4 blocks →
        ∃ arena answer, mymalloc client.arena size = some (arena, answer) ∧
          Served client.arena.heap blocks size arena answer := by
  obtain ⟨blocks, heap⟩ := h.blocks
  refine ⟨⟨blocks, heap.region⟩, fun others hothers => ?_⟩
  obtain rfl := heap.region.unique hothers
  rw [mymalloc_heap]
  rcases mymalloc_cases heap.region heap.extent size with
    ⟨hnone, hcause⟩ | ⟨left, block, right, placed, rfl, hfree, hlowest, hplaced, hsome⟩
  · refine ⟨_, _, hnone, rfl, iff_of_true rfl ?_, fun _ => rfl, ?_⟩
    · simpa only [Int.ofNat_lt] using hcause
    · intro ptr heq
      cases heq
  · obtain ⟨hfit, hshapes⟩ := hplaced.shapes (extendedSize_aligned size)
    have hregion := (heap.malloc hfree hplaced).region
    have hneeded : ¬ (size = 0 ∨ 5000 < size ∨ ∀ other ∈ left ++ [block] ++ right,
        other.allocated = true ∨ other.size < extendedSize size) := by
      rintro (hzero | hbig | hfull)
      · simp [mymalloc, hzero] at hsome
      · have hint : memSize < (size : Int) := by
          unfold memSize
          omega
        simp [mymalloc, hint] at hsome
      · cases hfull block (by simp) with
        | inl halloc => exact absurd halloc (by simp [hfree])
        | inr hsmall => exact Nat.not_lt.mpr hfit hsmall
    refine ⟨_, _, hsome, rfl, iff_of_false (Option.some_ne_none _) hneeded, ?_, ?_⟩
    · intro heq
      cases heq
    · intro ptr hptr
      obtain rfl := Option.some.inj hptr
      refine ⟨_, .mk hfree hfit ?_ hshapes, hregion⟩
      simpa only [Int.ofNat_lt] using hlowest

theorem first_fit_fresh : ∃ arena answer,
    mymalloc ⟨fun _ => 7, false⟩ 8 = some (arena, answer) ∧
      Served (initializeHeap fun _ => 7) [wholeArena] 8 arena answer :=
  (first_fit (.uninitialised fun _ => 7) 8).2 [wholeArena]
    (initializeHeap_heap fun _ => 7).region

/-- `myfree` right after `mymalloc` leaves the block list that was there before,
payloads and the insides of free blocks apart. -/
theorem free_undoes_malloc {client : Client} (h : Client.Reachable client) {size : Nat}
    {arena : Arena} {p : Int} (hmalloc : mymalloc client.arena size = some (arena, some p)) :
    (∃ blocks, Region tagCodec client.arena.heap 4 blocks) ∧
      ∀ blocks, Region tagCodec client.arena.heap 4 blocks ↔
        Region tagCodec (myfree arena.myBlock (some p)) 4 blocks := by
  obtain ⟨blocks, heap⟩ := h.blocks
  rw [mymalloc_heap] at hmalloc
  rcases mymalloc_cases heap.region heap.extent size with
    ⟨hnone, -⟩ | ⟨left, block, right, placed, rfl, hfree, -, hplaced, hsome⟩
  · rw [hnone] at hmalloc
    cases hmalloc
  · obtain ⟨rfl, heq⟩ := Prod.mk.inj (Option.some.inj (hsome.symm.trans hmalloc))
    obtain rfl := Option.some.inj heq
    obtain ⟨first, rest, rfl, hmerged⟩ := hplaced.release hfree heap.merged
    have hplacedHeap := heap.malloc hfree hplaced
    rw [List.append_assoc, List.cons_append] at hplacedHeap
    have hlive := hplacedHeap.live_block (p := 4 + total left + 4) (by simp [Client.Live])
    obtain ⟨-, other, -, -, -, -, hlow, hhigh⟩ := hlive
    have hmin := other.minimal
    have hreleased := (hplacedHeap.release true).region
    rw [hmerged] at hreleased
    have hafter : Region tagCodec (myfree (paint tagCodec client.arena.heap 4
        (left ++ (first :: rest) ++ right)) (some (4 + total left + 4))) 4
          (left ++ [block] ++ right) := by
      rw [myfree_eq (by omega) (by omega), List.append_assoc, List.cons_append]
      exact hreleased
    refine ⟨⟨_, heap.region⟩, fun others => ⟨fun hothers => ?_, fun hothers => ?_⟩⟩
    · obtain rfl := heap.region.unique hothers
      exact hafter
    · obtain rfl := hafter.unique hothers
      exact heap.region

theorem free_undoes_malloc_first : ∃ arena p,
    mymalloc ⟨fun _ => 7, false⟩ 8 = some (arena, some p) ∧
      Region tagCodec (myfree arena.myBlock (some p)) 4 [wholeArena] := by
  have hmalloc : ∃ arena p, mymalloc ⟨fun _ => 7, false⟩ 8 = some (arena, some p) := by
    rw [mymalloc_uninitialised]
    rcases mymalloc_cases (initializeHeap_heap fun _ => 7).region rfl 8 with
      ⟨-, hcause⟩ | ⟨left, block, right, placed, -, -, -, -, hsome⟩
    · exact absurd hcause (by decide)
    · exact ⟨_, _, hsome⟩
  obtain ⟨arena, p, hmalloc⟩ := hmalloc
  refine ⟨arena, p, hmalloc, ?_⟩
  exact ((free_undoes_malloc (.uninitialised fun _ => 7) hmalloc).2 [wholeArena]).mp
    (initializeHeap_heap fun _ => 7).region

end RutgersOS.VSmymalloc
