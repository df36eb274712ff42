import RutgersOS.Memory.Allocations
import RutgersOS.VSmymalloc.Arena

namespace RutgersOS.VSmymalloc

open RutgersOS.Memory
open RutgersOS.Memory.BoundaryTag (Region)

def extendedSize (size : Nat) : Nat :=
  size + (4 - size % 4) % 4 + 2 * 4

theorem extendedSize_aligned (size : Nat) : 4 ∣ extendedSize size := by
  unfold extendedSize
  omega

theorem extendedSize_minimal {size : Nat} (h : size ≠ 0) :
    12 ≤ extendedSize size := by
  unfold extendedSize
  omega

theorem mymalloc_cases {myBlock : Bytes} {blocks : List Block}
    (h : Region tagCodec myBlock 4 blocks) (hextent : total blocks = 4992)
    (size : Nat) :
    mymalloc ⟨myBlock, true⟩ size = some (⟨myBlock, true⟩, none) ∧
        (size = 0 ∨ 5000 < size ∨
          ∀ block ∈ blocks, block.allocated = true ∨
            (block.size : Int) < extendedSize size) ∨
      ∃ left block right placed, blocks = left ++ [block] ++ right ∧
        block.allocated = false ∧
        (∀ other ∈ left, other.allocated = true ∨
          (other.size : Int) < extendedSize size) ∧
        Placement (extendedSize size) block placed ∧
        mymalloc ⟨myBlock, true⟩ size =
          some (Arena.mk (paint tagCodec myBlock 4 (left ++ placed ++ right))
            true, some (4 + total left + 4 : Int)) := by
  by_cases hzero : size = 0
  · left
    exact ⟨by simp [mymalloc, hzero], Or.inl hzero⟩
  by_cases hbig : 5000 < size
  · refine Or.inl ⟨?_, Or.inr (Or.inl hbig)⟩
    have hint : memSize < size := by unfold memSize; omega
    simp [mymalloc, hzero, hint]
  have hint : ¬ memSize < (size : Int) := by unfold memSize; omega
  have hlength : blocks.length < memSize.toNat := by
    have := length_le_total blocks
    change blocks.length < 5000
    omega
  have hfind : findFit myBlock (extendedSize size) =
      BoundaryTag.firstFit tagCodec myBlock (extendedSize size) memSize.toNat
        (4 + total [] + 4) := rfl
  have hnothing : findFit myBlock (extendedSize size) = some none →
      mymalloc ⟨myBlock, true⟩ size = some (⟨myBlock, true⟩, none) := by
    intro hfound
    unfold extendedSize at hfound
    simp only [mymalloc, if_true, if_neg hzero, if_neg hint, hfound]
  have hserved : ∀ ptr, findFit myBlock (extendedSize size) = some (some ptr) →
      mymalloc ⟨myBlock, true⟩ size =
        if (extendedSize size : Int) < getSize myBlock ptr ∧
            2 * hdrSize < getSize myBlock ptr - extendedSize size then
          some (⟨BoundaryTag.split tagCodec myBlock ptr (extendedSize size)
            (getSize myBlock ptr - extendedSize size), true⟩, some ptr)
        else some (⟨BoundaryTag.occupy tagCodec myBlock ptr
          (getSize myBlock ptr), true⟩, some ptr) := by
    intro ptr hfound
    unfold extendedSize at hfound ⊢
    simp only [mymalloc, if_true, if_neg hzero, if_neg hint, hfound]
  have hwhole : Region tagCodec myBlock 4 ([] ++ blocks) := h
  rcases Region.firstFit_spec (extendedSize size) hwhole hlength with
    ⟨hnone, hall⟩ | ⟨left, block, right, rfl, hfree, hfit, hskip, hsome⟩
  · exact Or.inl ⟨hnothing (hfind.trans hnone), Or.inr (Or.inr hall)⟩
  · right
    have hregion : Region tagCodec myBlock 4 (left ++ [block] ++ right) := by
      simpa using h
    have hloc := Region.located h
    have halign := block.aligned
    have hextAlign := extendedSize_aligned size
    rw [hserved _ (hfind.trans hsome)]
    simp only [getSize, List.nil_append, hloc.size_eq]
    by_cases hroom : extendedSize size + 12 ≤ block.size
    · refine ⟨left, block, right, _, by simp, hfree, hskip,
        .split (extendedSize_minimal hzero) hextAlign hroom, ?_⟩
      rw [if_pos (by unfold hdrSize; omega), BoundaryTag.split_eq
        (extendedSize_minimal hzero) hextAlign hroom hregion]
    · refine ⟨left, block, right, _, by simp, hfree, hskip,
        .whole (by omega) (by omega), ?_⟩
      rw [if_neg (by unfold hdrSize; omega), BoundaryTag.occupy_eq hregion]

theorem mymalloc_uninitialised (myBlock : Bytes) (size : Nat) :
    mymalloc ⟨myBlock, false⟩ size =
      mymalloc ⟨initializeHeap myBlock, true⟩ size := by
  simp [mymalloc]

theorem mymalloc_isInitialized {arena next : Arena} {size : Nat} {ptr : Option Int}
    (h : mymalloc arena size = some (next, ptr)) : next.isInitialized = true := by
  unfold mymalloc at h
  grind

theorem myfree_eq {myBlock : Bytes} {ptr : Int} (hlow : 4 ≤ ptr)
    (hhigh : ptr ≤ 4992) :
    myfree myBlock (some ptr) = BoundaryTag.release tagCodec myBlock ptr := by
  have hinside : ¬ (memSize - 2 * hdrSize < ptr % 2 ^ 64 ∨ ptr < hdrSize) := by
    unfold memSize hdrSize
    omega
  exact if_neg hinside

def wholeArena : Block := ⟨4992, false, by decide, by decide⟩

/-- The arena is tiled by `blocks`, and the allocated ones are the live
allocations. -/
structure Heap (client : Client) (blocks : List Block) : Prop where
  region : Region tagCodec client.arena.myBlock 4 blocks
  prologue : client.arena.myBlock.load 0 = 1#32
  extent : total blocks = 4992
  merged : NoAdjacentFree blocks
  owned : ∀ p size, (p, size) ∈ client.live →
    ∃ room, allocatedAt 4 blocks p = some room ∧ size + 8 ≤ room
  alive : ∀ p room, allocatedAt 4 blocks p = some room → client.Live p
  distinct : (client.live.map Prod.fst).Nodup

theorem initializeHeap_load (myBlock : Bytes) {x : Int} (hx : 4 ∣ x) :
    (initializeHeap myBlock).load x =
      if x = 4992 ∨ x = 4 then tagCodec.encode 4992 0
      else if x = 4996 ∨ x = 0 then tagCodec.encode 0 1
      else myBlock.load x := by
  simp only [initializeHeap, setValue, BoundaryTag.setTag, memSize, hdrSize]
  rw [Bytes.load_store_aligned _ _ (by decide) hx,
    Bytes.load_store_aligned _ _ (by decide) hx,
    Bytes.load_store_aligned _ _ (by decide) hx,
    Bytes.load_store_aligned _ _ (by decide) hx]
  by_cases hblock : x = 4992 ∨ x = 4
  · rw [if_pos hblock]
    split
    · rfl
    · rw [if_pos (by omega)]
      rfl
  · rw [if_neg hblock, if_neg (by omega), if_neg (by omega)]
    by_cases hends : x = 4996 ∨ x = 0
    · rw [if_pos hends]
      split
      · rfl
      · rw [if_pos (by omega)]
    · rw [if_neg hends, if_neg (by omega), if_neg (by omega)]

theorem initializeHeap_heap (myBlock : Bytes) :
    Heap ⟨⟨initializeHeap myBlock, true⟩, []⟩ [wholeArena] where
  region := by
    refine ⟨by decide, by decide, ?_, ?_, ?_⟩
    · refine ⟨?_, ?_, trivial⟩
      · rw [initializeHeap_load myBlock (by decide)]
        rfl
      · rw [show (4 : Int) + wholeArena.size - 4 = 4992 from rfl,
          initializeHeap_load myBlock (by decide)]
        rfl
    · rw [initializeHeap_load myBlock (by decide), if_neg (by decide),
        if_pos (by decide)]
      exact BoundaryTag.size_end (by decide)
    · rw [initializeHeap_load myBlock (by decide)]
      rfl
  prologue := by
    rw [initializeHeap_load myBlock (by decide)]
    rfl
  extent := rfl
  merged := List.IsChain.singleton _
  owned := by simp
  alive := by simp [allocatedAt, wholeArena]
  distinct := List.nodup_nil

namespace Heap

variable {client : Client} {blocks : List Block}

theorem epilogue (h : Heap client blocks) :
    client.arena.myBlock.load 4996 = 1#32 := by
  have hafter := h.region.after
  rw [h.extent] at hafter
  exact hafter

theorem allocations (h : Heap client blocks) :
    Allocations tagCodec client.arena.myBlock 4 (fun p size => (p, size) ∈ client.live)
      blocks :=
  ⟨h.region, h.merged, h.owned⟩

theorem live_block (h : Heap client blocks) {p : Int} (hlive : client.Live p) :
    ∃ left block right, blocks = left ++ block :: right ∧
      block.allocated = true ∧ p = 4 + total left + 4 ∧
        8 ≤ p ∧ p + block.size ≤ 5000 := by
  obtain ⟨⟨q, size⟩, hmem, rfl⟩ := List.mem_map.mp hlive
  obtain ⟨room, hroom, -⟩ := h.owned q size hmem
  have hrange := allocatedAt_range hroom
  have hextent := h.extent
  obtain ⟨left, block, right, rfl, halloc, rfl, hp⟩ :=
    exists_block_of_allocatedAt hroom
  exact ⟨left, block, right, rfl, halloc, hp, by omega, by omega⟩

theorem live_iff (h : Heap client blocks) (p : Int) :
    (allocatedAt 4 blocks p).isSome ↔ client.Live p := by
  constructor
  · intro hsome
    obtain ⟨room, hroom⟩ := Option.isSome_iff_exists.mp hsome
    exact h.alive p room hroom
  · intro hlive
    obtain ⟨⟨q, size⟩, hmem, rfl⟩ := List.mem_map.mp hlive
    obtain ⟨room, hroom, -⟩ := h.owned q size hmem
    rw [hroom]
    rfl

theorem eq_wholeArena (h : Heap client blocks) (hlive : client.live = []) :
    blocks = [wholeArena] := by
  have hextent := h.extent
  have hne : blocks ≠ [] := by
    rintro rfl
    exact absurd hextent (by decide)
  have hnone : ∀ p, allocatedAt 4 blocks p = none := by
    intro p
    cases hp : allocatedAt 4 blocks p with
    | none => rfl
    | some room => simpa [Client.Live, hlive] using h.alive p room hp
  obtain ⟨block, rfl, hfree⟩ := eq_singleton_of_none h.merged hne hnone
  have hsize : block.size = 4992 := by simpa using hextent
  exact congrArg (fun b => [b]) (Block.ext hsize hfree)

theorem malloc {left right placed : List Block} {block : Block} {size : Nat}
    (h : Heap client (left ++ [block] ++ right))
    (hfree : block.allocated = false)
    (hplaced : Placement (extendedSize size) block placed) :
    Heap ⟨⟨paint tagCodec client.arena.myBlock 4 (left ++ placed ++ right), true⟩,
        (4 + (total left : Int) + 4, size) :: client.live⟩
      (left ++ placed ++ right) := by
  have hsize : size + 8 ≤ extendedSize size := by
    unfold extendedSize
    omega
  have hallocated := h.allocations.allocate hfree hplaced hsize
  have hold := (Allocations.allocatedAt_placed hfree hplaced 4 left right (4 + total left + 4)).1
  refine ⟨hallocated.region, ?_, ?_, hallocated.merged, ?_, ?_, ?_⟩
  · rw [load_paint tagCodec _ _ (by decide) (by decide),
      tagAt_below tagCodec (by decide)]
    exact h.prologue
  · have hextent := h.extent
    simp only [total_append, hplaced.total_eq] at hextent ⊢
    exact hextent
  · intro p n hmem
    apply hallocated.owned p n
    rcases List.mem_cons.mp hmem with heq | hmem
    · exact Or.inl (Prod.mk.inj heq)
    · exact Or.inr hmem
  · intro p other hp
    by_cases heq : p = 4 + (total left : Int) + 4
    · exact List.mem_map.mpr ⟨_, List.mem_cons_self, heq.symm⟩
    · rw [(Allocations.allocatedAt_placed hfree hplaced 4 left right p).2.1 heq] at hp
      exact List.mem_cons_of_mem _ (h.alive p other hp)
  · refine List.nodup_cons.mpr ⟨fun hmem => ?_, h.distinct⟩
    have hsome := (h.live_iff _).mpr hmem
    rw [hold] at hsome
    exact absurd hsome (by simp)

theorem release {left right : List Block} {block : Block} (init : Bool)
    (h : Heap client (left ++ block :: right)) :
    Heap ⟨⟨BoundaryTag.release tagCodec client.arena.myBlock
          (4 + (total left : Int) + 4), init⟩,
        client.live.filter fun entry =>
          some entry.1 ≠ some (4 + (total left : Int) + 4)⟩
      (mergeFree (left ++ block.free :: right)) := by
  have htotal : total (mergeFree (left ++ block.free :: right)) =
      total (left ++ block :: right) := by simp
  have hreleased := h.allocations.release
  have hhere : allocatedAt 4 (left ++ block.free :: right)
      (4 + (total left : Int) + 4) = none := by
    rw [allocatedAt_here]
    rfl
  refine ⟨hreleased.region, ?_, htotal.trans h.extent, mergeFree_chain _, ?_, ?_, ?_⟩
  · refine (Bytes.load_congr fun y hlow hhigh => ?_).trans h.prologue
    exact h.allocations.release_frame (Or.inl (by omega))
  · intro p n hmem
    obtain ⟨hmem, hp⟩ := List.mem_filter.mp hmem
    exact hreleased.owned p n ⟨hmem, by simpa using hp⟩
  · intro p room hp
    rw [allocatedAt_mergeFree] at hp
    have hne : p ≠ 4 + (total left : Int) + 4 := by
      rintro rfl
      rw [hhere] at hp
      cases hp
    rw [allocatedAt_other block.free_size left right hne] at hp
    obtain ⟨entry, hmem, rfl⟩ := List.mem_map.mp (h.alive p room hp)
    exact List.mem_map.mpr
      ⟨entry, List.mem_filter.mpr ⟨hmem, by simpa using hne⟩, rfl⟩
  · exact h.distinct.sublist (List.filter_sublist.map _)

theorem write (h : Heap client blocks) {p : Int} {size offset : Nat}
    (hmem : (p, size) ∈ client.live) (hoffset : offset < size) (byte : UInt8) :
    Heap { client with
      arena := Client.writeByte client.arena (p + offset) byte } blocks := by
  obtain ⟨-, -, -, -, -, -, hlow, -⟩ := h.live_block (List.mem_map.mpr ⟨_, hmem, rfl⟩)
  have hwritten := h.allocations.write hmem hoffset byte
  refine ⟨hwritten.region, ?_, h.extent, h.merged, h.owned, h.alive, h.distinct⟩
  refine (Bytes.load_congr fun y hbelow habove => ?_).trans h.prologue
  exact if_neg (by omega)

end Heap

end RutgersOS.VSmymalloc
