import Mathlib.Data.Set.Insert
import RutgersOS.VSmymalloc.Clients

namespace RutgersOS.VSmymalloc

open RutgersOS.Memory
open RutgersOS.VSmymalloc.Client

/-! Sequences of frees.  The arena after any of them is the arena of the start,
its tag words wiped and painted again with the merged block list. -/

def freeAll (myBlock : Bytes) (ptrs : List Int) : Bytes :=
  ptrs.foldl (fun myBlock ptr => myfree myBlock (some ptr)) myBlock

def zeroTag : BitVec 32 := tagCodec.encode 0 0

def freedBlocks (blocks : List Block) (ptrs : List Int) : List Block :=
  mergeFree (releaseWhere (fun p => decide (p ∈ ptrs)) 4 blocks)

theorem freedBlocks_congr {blocks : List Block} {first second : List Int}
    (h : ∀ p, p ∈ first ↔ p ∈ second) :
    freedBlocks blocks first = freedBlocks blocks second := by
  unfold freedBlocks
  apply congrArg mergeFree
  apply releaseWhere_congr
  intro p _ _
  simp only [h p]

/-- A second free of a pointer whose tags were swallowed by a merge meets zero
words only. -/
theorem release_swallowed {myBlock : Bytes} {ptr : Int}
    (hheader : myBlock.load (ptr - 4) = zeroTag)
    (hfooter : myBlock.load (ptr - 8) = zeroTag) :
    BoundaryTag.release tagCodec myBlock ptr = myBlock := by
  have hsize : BoundaryTag.blockSize tagCodec myBlock ptr = 0 := by
    rw [BoundaryTag.blockSize, BoundaryTag.header, hheader]
    decide
  have hflag : BoundaryTag.blockFlag tagCodec myBlock ptr = 0 := by
    rw [BoundaryTag.blockFlag, BoundaryTag.header, hheader]
    decide
  have hzero : tagCodec.size zeroTag = 0 := by decide
  have hsetHeader : BoundaryTag.setTag tagCodec myBlock
      (BoundaryTag.header ptr) 0 0 = myBlock := by
    rw [BoundaryTag.setTag, BoundaryTag.header]
    change myBlock.store (ptr - 4) zeroTag = myBlock
    rw [← hheader]
    exact Bytes.store_load_same _ _
  have hsetFooter : BoundaryTag.setTag tagCodec myBlock
      (BoundaryTag.footer tagCodec myBlock ptr) 0 0 = myBlock := by
    rw [BoundaryTag.setTag, BoundaryTag.footer, hsize, Int.add_zero]
    change myBlock.store (ptr - 8) zeroTag = myBlock
    rw [← hfooter]
    exact Bytes.store_load_same _ _
  have hprevious : BoundaryTag.previous tagCodec myBlock ptr = none := by
    simp only [BoundaryTag.previous, hfooter, hzero, if_true]
  have hnext : BoundaryTag.next tagCodec myBlock ptr = some ptr := by
    simp [BoundaryTag.next, hsize, hflag]
  simp only [BoundaryTag.release, hsize, hsetHeader, hsetFooter]
  simp only [BoundaryTag.coalesce, hprevious, hnext, Option.elim_none,
    Option.elim_some, hflag, Option.getD_some]
  simp [BoundaryTag.mergeNext, hsize, hsetHeader, hsetFooter]

section Sequence

variable {client : Client} {blocks : List Block} (heap : Heap client blocks)
  (ptrs : List Int)

/-- The arena that a sequence of frees of the live pointers `ptrs` leaves. -/
def freedArena (myBlock : Bytes) (blocks : List Block) (ptrs : List Int) :
    Bytes :=
  paint tagCodec (wipe zeroTag myBlock 4 blocks) 4 (freedBlocks blocks ptrs)

theorem freedBlocks_tag {x : Int} (blocks : List Block)
    (h : (tagAt tagCodec 4 (freedBlocks blocks ptrs) x).isSome) :
    (tagAt tagCodec 4 blocks x).isSome := by
  rw [← tagAt_isSome_congr tagCodec (releaseWhere_sizes _ 4 blocks)]
  exact tagAt_mergeFree tagCodec h

theorem total_freedBlocks (blocks : List Block) :
    total (freedBlocks blocks ptrs) = total blocks := by
  simp [freedBlocks]

theorem wipe_freedArena (myBlock : Bytes) :
    wipe zeroTag (freedArena myBlock blocks ptrs) 4 (freedBlocks blocks ptrs) =
      wipe zeroTag myBlock 4 blocks := by
  apply Bytes.ext_aligned
  intro x hx
  rw [load_wipe tagCodec _ _ _ (by decide) hx, freedArena,
    load_paint tagCodec _ _ (by decide) hx]
  cases hnew : tagAt tagCodec 4 (freedBlocks blocks ptrs) x with
  | none => rfl
  | some word =>
      have hold := freedBlocks_tag ptrs blocks (by rw [hnew]; rfl)
      obtain ⟨old, hold⟩ := Option.isSome_iff_exists.mp hold
      rw [load_wipe tagCodec _ _ _ (by decide) hx, hold]
      rfl

include heap

theorem freedArena_region :
    BoundaryTag.Region tagCodec (freedArena client.arena.myBlock blocks ptrs) 4
      (freedBlocks blocks ptrs) :=
  heap.region.repaint _ (total_freedBlocks ptrs blocks)

theorem free_fresh {p : Int} (hlive : client.Live p) (hfresh : p ∉ ptrs) :
    myfree (freedArena client.arena.myBlock blocks ptrs) (some p) =
      freedArena client.arena.myBlock blocks (ptrs ++ [p]) := by
  have hregion := freedArena_region heap ptrs
  obtain ⟨left, block, right, rfl, halloc, rfl, hlow, hhigh⟩ :=
    heap.live_block hlive
  have hmin := block.minimal
  generalize hp : 4 + (total left : Int) + 4 = p at hfresh hlow hhigh
  -- the block of `p` is still allocated, so it separates the merged list
  have hkeep : releaseWhere (fun q => decide (q ∈ ptrs)) 4
      (left ++ block :: right) =
      releaseWhere (fun q => decide (q ∈ ptrs)) 4 left ++ block ::
        releaseWhere (fun q => decide (q ∈ ptrs)) (4 + total left + block.size)
          right := by
    rw [releaseWhere_append, releaseWhere, hp]
    simp [hfresh]
  have hdrop : releaseWhere (fun q => decide (q ∈ ptrs ++ [p])) 4
      (left ++ block :: right) =
      releaseWhere (fun q => decide (q ∈ ptrs)) 4 left ++ block.free ::
        releaseWhere (fun q => decide (q ∈ ptrs)) (4 + total left + block.size)
          right := by
    rw [releaseWhere_append, releaseWhere, hp]
    congr 1
    · apply releaseWhere_congr
      intro q hqlow hqhigh
      have hne : q ≠ p := by omega
      simp [hne]
    · congr 1
      · simp
      · apply releaseWhere_congr
        intro q hqlow hqhigh
        have hne : q ≠ p := by omega
        simp [hne]
  have hbefore : freedBlocks (left ++ block :: right) ptrs =
      mergeFree (releaseWhere (fun q => decide (q ∈ ptrs)) 4 left) ++ block ::
        mergeFree (releaseWhere (fun q => decide (q ∈ ptrs))
          (4 + total left + block.size) right) := by
    rw [freedBlocks, hkeep, mergeFree_allocated halloc]
  have hafter : freedBlocks (left ++ block :: right) (ptrs ++ [p]) =
      mergeFree (mergeFree (releaseWhere (fun q => decide (q ∈ ptrs)) 4 left) ++
        block.free :: mergeFree (releaseWhere (fun q => decide (q ∈ ptrs))
          (4 + total left + block.size) right)) := by
    have hjoin := mergeFree_append_right
      (releaseWhere (fun q => decide (q ∈ ptrs)) 4 left ++ [block.free])
      (releaseWhere (fun q => decide (q ∈ ptrs))
        (4 + total left + block.size) right)
    simp only [List.append_assoc, List.singleton_append] at hjoin
    rw [freedBlocks, hdrop, mergeFree_append_left, hjoin]
  have hptr : p = 4 + (total (mergeFree (releaseWhere
      (fun q => decide (q ∈ ptrs)) 4 left)) : Int) + 4 := by
    simp [← hp]
  have hwipe : wipe zeroTag (freedArena client.arena.myBlock
      (left ++ block :: right) ptrs) 4
        (freedBlocks (left ++ block :: right) ptrs) =
      wipe zeroTag client.arena.myBlock 4 (left ++ block :: right) :=
    wipe_freedArena ptrs client.arena.myBlock
  rw [myfree_eq (by omega) (by omega)]
  rw [hbefore] at hregion hwipe
  conv_lhs => rw [hptr]
  rw [BoundaryTag.release_eq hregion (mergeFree_chain _) (mergeFree_chain _)]
  change paint tagCodec (wipe zeroTag _ 4 _) 4 _ = _
  rw [hwipe, ← hafter]
  rfl

theorem free_again {p : Int} (hlive : client.Live p) (hfreed : p ∈ ptrs) :
    myfree (freedArena client.arena.myBlock blocks ptrs) (some p) =
      freedArena client.arena.myBlock blocks ptrs := by
  have hregion := freedArena_region heap ptrs
  obtain ⟨left, block, right, rfl, halloc, hp, hlow, hhigh⟩ :=
    heap.live_block hlive
  have hmin := block.minimal
  have hblock := block.aligned
  have hleft := four_dvd_total left
  rw [myfree_eq (by omega) (by omega)]
  have hdrop : releaseWhere (fun q => decide (q ∈ ptrs)) 4
      (left ++ block :: right) =
      releaseWhere (fun q => decide (q ∈ ptrs)) 4 left ++ block.free ::
        releaseWhere (fun q => decide (q ∈ ptrs)) (4 + total left + block.size)
          right := by
    rw [releaseWhere_append, releaseWhere, ← hp]
    simp [hfreed]
  rcases mergeFree_boundary tagCodec 4
      (releaseWhere (fun q => decide (q ∈ ptrs)) 4 left)
      (List.cons_ne_nil block.free (releaseWhere (fun q => decide (q ∈ ptrs))
        (4 + total left + block.size) right)) with
    ⟨merged, heq, htotal⟩ | ⟨hne, hheader, hfooter⟩
  · -- `p` still begins a block, which is free and merged already
    obtain ⟨first, rest, hcons, hfirst⟩ : ∃ first rest,
        mergeFree (block.free :: releaseWhere (fun q => decide (q ∈ ptrs))
          (4 + total left + block.size) right) = first :: rest ∧
          first.allocated = false := by
      rw [mergeFree_cons]
      cases mergeFree (releaseWhere (fun q => decide (q ∈ ptrs))
          (4 + total left + block.size) right) with
      | nil => exact ⟨_, _, rfl, rfl⟩
      | cons next others =>
          simp only [joinFront]
          split
          · exact ⟨_, _, rfl, rfl⟩
          · exact ⟨_, _, rfl, rfl⟩
    have hblocks : freedBlocks (left ++ block :: right) ptrs =
        merged ++ first :: rest := by
      rw [freedBlocks, hdrop, heq, hcons]
    have hchain : NoAdjacentFree (merged ++ first :: rest) := by
      rw [← hblocks]
      exact mergeFree_chain _
    have hsplit := List.isChain_append.mp hchain
    have hptr : p = 4 + (total merged : Int) + 4 := by
      rw [htotal, total_releaseWhere]
      exact hp
    rw [hblocks] at hregion
    rw [hptr, BoundaryTag.release_eq hregion hsplit.1
      (List.isChain_cons.mp hsplit.2.1).2, Block.free_of_not_allocated hfirst,
      mergeFree_of_chain hchain]
    exact paint_wipe_self tagCodec _ (by decide) hregion.tiles
  · -- both tag words of the boundary at `p` were zeroed by the merge
    rw [← hdrop, total_releaseWhere] at hheader hfooter
    have htagHeader : tagAt tagCodec 4 (left ++ block :: right) (p - 4) =
        some (block.tag tagCodec) := by
      rw [tagAt_append, tagAt_above tagCodec (by omega), Option.none_or,
        tagAt_hit tagCodec (by omega)]
    have htagFooter : (tagAt tagCodec 4 (left ++ block :: right)
        (p - 8)).isSome := by
      rcases List.eq_nil_or_concat left with rfl | ⟨before, last, rfl⟩
      · simp [releaseWhere] at hne
      · have hlast := last.minimal
        simp only [List.concat_eq_append, total_append, total_cons, total_nil]
          at hp
        rw [List.concat_eq_append, tagAt_append, tagAt_append,
          tagAt_above tagCodec (by omega : _ + (total before : Int) < _), Option.none_or,
          tagAt_hit tagCodec (by omega)]
        rfl
    obtain ⟨word, htagFooter⟩ := Option.isSome_iff_exists.mp htagFooter
    have hzero : ∀ x, 4 ∣ x →
        (tagAt tagCodec 4 (left ++ block :: right) x).isSome →
        tagAt tagCodec 4 (freedBlocks (left ++ block :: right) ptrs) x = none →
        (freedArena client.arena.myBlock (left ++ block :: right) ptrs).load x =
          zeroTag := by
      intro x hx hold hnew
      obtain ⟨old, hold⟩ := Option.isSome_iff_exists.mp hold
      rw [freedArena, load_paint tagCodec _ _ (by decide) hx, hnew,
        load_wipe tagCodec _ _ _ (by decide) hx, hold]
      rfl
    apply release_swallowed
    · apply hzero _ (by omega) (by rw [htagHeader]; rfl)
      rw [hp, Int.add_sub_cancel]
      exact hheader
    · apply hzero _ (by omega) (by rw [htagFooter]; rfl)
      rw [hp, show 4 + (total left : Int) + 4 - 8 = 4 + total left - 4 by omega]
      exact hfooter

/-- The run lemma: the arena depends on the set of freed pointers only. -/
theorem freeAll_eq (hlive : ∀ p ∈ ptrs, client.Live p) :
    freeAll client.arena.myBlock ptrs =
      freedArena client.arena.myBlock blocks ptrs := by
  induction ptrs using List.reverseRecOn with
  | nil =>
      have hnone : freedBlocks blocks [] = blocks := by
        rw [freedBlocks, show (fun p : Int => decide (p ∈ ([] : List Int))) =
          fun _ => false by funext p; simp, releaseWhere_none]
        exact mergeFree_of_chain heap.merged
      rw [freedArena, hnone]
      exact (paint_wipe_self tagCodec _ (by decide) heap.region.tiles).symm
  | append_singleton ptrs p ih =>
      have hp : client.Live p := hlive p (by simp)
      have hfront := ih fun q hq => hlive q (by simp [hq])
      rw [freeAll, List.foldl_append]
      change myfree (freeAll client.arena.myBlock ptrs) (some p) = _
      rw [hfront]
      by_cases hfreed : p ∈ ptrs
      · rw [free_again heap ptrs hp hfreed, freedArena, freedArena,
          @freedBlocks_congr _ (ptrs ++ [p]) ptrs]
        intro q
        constructor
        · intro hq
          rcases List.mem_append.mp hq with hq | hq
          · exact hq
          · obtain rfl := List.mem_singleton.mp hq
            exact hfreed
        · exact fun hq => List.mem_append.mpr (Or.inl hq)
      · exact free_fresh heap ptrs hp hfreed

end Sequence

theorem freeAll_congr {client : Client} (h : Reachable client) {first second : List Int}
    (hlive : ∀ p ∈ first, client.Live p) (hsame : ∀ p, p ∈ first ↔ p ∈ second) :
    freeAll client.arena.myBlock first = freeAll client.arena.myBlock second := by
  rcases h.sound with ⟨-, hnone⟩ | ⟨-, blocks, heap⟩
  · have hfirst : first = [] := by
      refine List.eq_nil_iff_forall_not_mem.mpr fun p hp => ?_
      simpa [Client.Live, hnone] using hlive p hp
    have hsecond : second = [] := by
      refine List.eq_nil_iff_forall_not_mem.mpr fun p hp => ?_
      have hmem := (hsame p).mpr hp
      rw [hfirst] at hmem
      exact List.not_mem_nil hmem
    rw [hfirst, hsecond]
  · rw [freeAll_eq heap first hlive,
      freeAll_eq heap second fun p hp => hlive p ((hsame p).mpr hp), freedArena, freedArena,
      freedBlocks_congr hsame]

/-- Any two sequences of frees of the same live pointers, in any order and with
any repetitions, leave the same arena. -/
theorem free_order_irrelevant {client : Client} (h : Reachable client)
    (S : Set Int) (hlive : ∀ p ∈ S, client.Live p) {first second : List Int}
    (hfirst : ∀ p, p ∈ first ↔ p ∈ S) (hsecond : ∀ p, p ∈ second ↔ p ∈ S) :
    freeAll client.arena.myBlock first = freeAll client.arena.myBlock second ∧
      ∀ p ∈ S, myfree (freeAll client.arena.myBlock first) (some p) =
        freeAll client.arena.myBlock first := by
  have hall : ∀ p ∈ first, client.Live p := fun p hp => hlive p ((hfirst p).mp hp)
  refine ⟨freeAll_congr h hall fun p => (hfirst p).trans (hsecond p).symm, fun p hp => ?_⟩
  have hmem := (hfirst p).mpr hp
  have hagain := @freeAll_congr _ h first (first ++ [p]) hall fun q => by
    rw [List.mem_append, List.mem_singleton]
    refine (or_iff_left_of_imp ?_).symm
    rintro rfl
    exact hmem
  rw [freeAll, freeAll, List.foldl_append] at hagain
  exact hagain.symm

/-- Two neighbours: after the first two frees the header that the third one looks at is
inside a merged block. -/
theorem free_order_irrelevant_double_free : ∃ first client,
    Client.step ⟨⟨fun _ => 0, false⟩, []⟩ (.malloc 8) = some first ∧
      first.step (.malloc 8) = some client ∧ client.Live 8 ∧ client.Live 24 ∧
        freeAll client.arena.myBlock [8, 24, 24] = freeAll client.arena.myBlock [24, 8] := by
  obtain ⟨first, hstep, hreach, -, -⟩ := first_malloc
  obtain ⟨client, hnext⟩ := hreach.returns (.malloc 8) trivial
  have hlive : ((Client.step ⟨⟨fun _ => 0, false⟩, []⟩ (.malloc 8)).bind fun first =>
      first.step (.malloc 8)).map Client.live = some [(24, 8), (8, 8)] := by
    decide +kernel
  rw [hstep, Option.bind_some, hnext] at hlive
  have hlive : client.live = [(24, 8), (8, 8)] := Option.some.inj hlive
  have hmem : ∀ p, client.Live p ↔ p = 24 ∨ p = 8 := by
    intro p
    simp [Client.Live, hlive]
  refine ⟨first, client, hstep, hnext, (hmem 8).mpr (Or.inr rfl), (hmem 24).mpr (Or.inl rfl),
    (free_order_irrelevant (hreach.step (.malloc 8) trivial hnext) {24, 8} ?_ ?_ ?_).1⟩
  · intro p hp
    exact (hmem p).mpr hp
  · intro p
    simp [or_comm]
  · intro p
    simp

end RutgersOS.VSmymalloc
