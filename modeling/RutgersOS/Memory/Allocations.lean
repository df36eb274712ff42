import RutgersOS.Memory.BoundaryTag
import RutgersOS.Memory.Payloads

namespace RutgersOS.Memory

open BoundaryTag (Region)

/-! A region whose allocated blocks hold the live allocations: `live p size` says
that `size` bytes from `p` on belong to a client. -/

structure Allocations (codec : TagCodec) (memory : Bytes) (start : Int)
    (live : Int → Nat → Prop) (blocks : List Block) : Prop where
  region : Region codec memory start blocks
  merged : NoAdjacentFree blocks
  owned : ∀ p size, live p size →
    ∃ room, allocatedAt start blocks p = some room ∧ size + 8 ≤ room

namespace Allocations

variable {codec : TagCodec} {memory : Bytes} {start : Int} {live : Int → Nat → Prop}
  {blocks left right : List Block} {block : Block}

theorem live_block (h : Allocations codec memory start live blocks) {p : Int}
    {size : Nat} (hlive : live p size) :
    ∃ left block right, blocks = left ++ block :: right ∧ block.allocated = true ∧
      p = start + total left + 4 := by
  obtain ⟨room, hroom, -⟩ := h.owned p size hlive
  obtain ⟨left, block, right, hblocks, halloc, -, hp⟩ :=
    exists_block_of_allocatedAt hroom
  exact ⟨left, block, right, hblocks, halloc, hp⟩

theorem congr (h : Allocations codec memory start live blocks) {other : Bytes}
    {live' : Int → Nat → Prop} (hlive : ∀ p size, live' p size → live p size)
    (hsame : ∀ x, start - 4 ≤ x → x < start + total blocks + 4 →
      other x = memory x) : Allocations codec other start live' blocks where
  region := by
    refine h.region.congr fun x hx hcase => Bytes.load_congr fun y hlow hhigh => ?_
    refine hsame y ?_ ?_
    · rcases hcase with hsome | rfl | rfl
      · obtain ⟨word, hword⟩ := Option.isSome_iff_exists.mp hsome
        have := tagAt_range codec hword
        omega
      · omega
      · omega
    · rcases hcase with hsome | rfl | rfl
      · obtain ⟨word, hword⟩ := Option.isSome_iff_exists.mp hsome
        have := tagAt_range codec hword
        omega
      · omega
      · omega
  merged := h.merged
  owned p size hp := h.owned p size (hlive p size hp)

theorem allocatedAt_placed {extent : Nat} {placed : List Block}
    (hfree : block.allocated = false) (hplaced : Placement extent block placed)
    (start : Int) (left right : List Block) (p : Int) :
    allocatedAt start (left ++ [block] ++ right) (start + total left + 4) = none ∧
      (p ≠ start + total left + 4 → allocatedAt start (left ++ placed ++ right) p =
        allocatedAt start (left ++ [block] ++ right) p) ∧
      ∃ room, extent ≤ room ∧ allocatedAt start (left ++ placed ++ right)
        (start + total left + 4) = some room := by
  have htotal := hplaced.total_eq
  have hmin := block.minimal
  obtain ⟨room, hroom, hat⟩ := hplaced.allocatedAt_eq (start + (total left : Int))
  refine ⟨?_, fun hp => ?_, room, hroom, ?_⟩
  · rw [allocatedAt_middle _ _ (by omega)
      (by rw [total_cons, total_nil]; omega), allocatedAt_free hfree]
    rfl
  · by_cases hmid : start + (total left : Int) + 4 ≤ p ∧
        p < start + (total left : Int) + total [block] + 4
    · rw [allocatedAt_middle _ _ hmid.1 (by rw [htotal]; exact hmid.2),
        allocatedAt_middle _ _ hmid.1 hmid.2, hat, if_neg hp,
        allocatedAt_free hfree]
      rfl
    · exact allocatedAt_outside left right htotal (by rw [htotal]; omega)
  · rw [allocatedAt_middle _ _ (by omega)
      (by rw [htotal, total_cons, total_nil]; omega), hat, if_pos rfl]

/-- Handing out a placement of a free block. -/
theorem allocate {extent size : Nat} {placed : List Block}
    (h : Allocations codec memory start live (left ++ [block] ++ right))
    (hfree : block.allocated = false) (hplaced : Placement extent block placed)
    (hsize : size + 8 ≤ extent) :
    Allocations codec (paint codec memory start (left ++ placed ++ right)) start
      (fun p n => p = start + total left + 4 ∧ n = size ∨ live p n)
      (left ++ placed ++ right) := by
  have htotal := hplaced.total_eq
  refine ⟨h.region.paint (by simp only [total_append, htotal]),
    hplaced.merged hfree h.merged, fun p n hlive => ?_⟩
  obtain ⟨hold, hother, room, hroom, hnew⟩ :=
    allocatedAt_placed hfree hplaced start left right p
  rcases hlive with ⟨rfl, rfl⟩ | hlive
  · exact ⟨room, hnew, Nat.le_trans hsize hroom⟩
  · obtain ⟨other, hp, hn⟩ := h.owned p n hlive
    refine ⟨other, ?_, hn⟩
    rw [hother (fun heq => by rw [heq, hold] at hp; cases hp)]
    exact hp

theorem release (h : Allocations codec memory start live (left ++ block :: right)) :
    Allocations codec (BoundaryTag.release codec memory (start + total left + 4)) start
      (fun p n => live p n ∧ p ≠ start + total left + 4)
      (mergeFree (left ++ block.free :: right)) := by
  have hsplit := List.isChain_append.mp h.merged
  have hright := (List.isChain_cons.mp hsplit.2.1).2
  have htotal : total (mergeFree (left ++ block.free :: right)) =
      total (left ++ block :: right) := by simp
  rw [BoundaryTag.release_eq h.region hsplit.1 hright]
  refine ⟨h.region.repaint _ htotal, mergeFree_chain _, ?_⟩
  rintro p n ⟨hlive, hne⟩
  obtain ⟨room, hroom, hn⟩ := h.owned p n hlive
  refine ⟨room, ?_, hn⟩
  rw [allocatedAt_mergeFree, allocatedAt_other block.free_size left right hne]
  exact hroom

theorem write (h : Allocations codec memory start live blocks) {p : Int}
    {size offset : Nat} (hlive : live p size) (hoffset : offset < size) (byte : UInt8) :
    Allocations codec (fun x => if x = p + offset then byte else memory x) start live
      blocks := by
  obtain ⟨room, hroom, hsize⟩ := h.owned p size hlive
  have hrange := allocatedAt_range hroom
  have halign : 4 ∣ p := by
    obtain ⟨left, block, right, -, -, -, rfl⟩ := exists_block_of_allocatedAt hroom
    have := four_dvd_total left
    have := h.region.aligned
    omega
  have hstart := h.region.aligned
  refine ⟨h.region.congr fun x hx hcase => Bytes.load_congr fun y hlow hhigh => ?_,
    h.merged, h.owned⟩
  refine if_neg ?_
  rcases hcase with hsome | rfl | rfl
  · by_cases hin : p ≤ x ∧ x + 8 < p + room
    · rw [tagAt_payload codec hroom hin.1 hin.2] at hsome
      exact absurd hsome (by simp)
    · omega
  · omega
  · omega

theorem paint_frame (hstart : 4 ∣ start) {x : Int}
    (hx : x < start ∨ start + total blocks ≤ x) :
    paint codec memory start blocks x = memory x := by
  refine paint_outside codec memory hstart ?_
  have hdvd := four_dvd_total blocks
  rcases hx with hbelow | habove
  · exact tagAt_below codec (by omega)
  · exact tagAt_above codec (by omega)

theorem release_frame
    (h : Allocations codec memory start live (left ++ block :: right)) {x : Int}
    (hx : x < start ∨ start + total (left ++ block :: right) ≤ x) :
    BoundaryTag.release codec memory (start + total left + 4) x = memory x := by
  have hsplit := List.isChain_append.mp h.merged
  have hright := (List.isChain_cons.mp hsplit.2.1).2
  have hstart := h.region.aligned
  have hdvd := four_dvd_total (left ++ block :: right)
  have htotal : total (mergeFree (left ++ block.free :: right)) =
      total (left ++ block :: right) := by simp
  rw [BoundaryTag.release_eq h.region hsplit.1 hright]
  rcases hx with hbelow | habove
  · exact paint_wipe_outside codec _ memory hstart (tagAt_below codec (by omega))
      (tagAt_below codec (by omega))
  · exact paint_wipe_outside codec _ memory hstart (tagAt_above codec (by omega))
      (tagAt_above codec (by rw [htotal]; omega))

end Allocations

end RutgersOS.Memory
