import RutgersOS.Memory.Merging

namespace RutgersOS.Memory.BoundaryTag

/-! A boundary-tag allocator over byte memory.  Pointers are payload addresses:
the header word lies four bytes before, the footer closes the block. -/

variable (codec : TagCodec)

def header (ptr : Int) : Int := ptr - 4

def blockSize (memory : Bytes) (ptr : Int) : Int :=
  codec.size (memory.load (header ptr))

def blockFlag (memory : Bytes) (ptr : Int) : Int :=
  codec.flag (memory.load (header ptr))

def footer (memory : Bytes) (ptr : Int) : Int :=
  ptr + blockSize codec memory ptr - 8

def setTag (memory : Bytes) (address size flag : Int) : Bytes :=
  memory.store address (codec.encode size flag)

def previous (memory : Bytes) (ptr : Int) : Option Int :=
  let size := codec.size (memory.load (ptr - 8))
  if size = 0 then none else some (ptr - size)

def next (memory : Bytes) (ptr : Int) : Option Int :=
  let following := ptr + blockSize codec memory ptr
  if blockSize codec memory following = 0 ∧
      blockFlag codec memory following = 1 then none
  else some following

def mergePrevious (memory : Bytes) (prev ptr : Int) : Bytes :=
  let size := blockSize codec memory ptr + blockSize codec memory prev
  let memory := setTag codec memory (footer codec memory prev) 0 0
  let memory := setTag codec memory (header prev) size 0
  let memory := setTag codec memory (footer codec memory ptr) size 0
  setTag codec memory (header ptr) 0 0

def mergeNext (memory : Bytes) (ptr following : Int) : Bytes :=
  let size := blockSize codec memory ptr + blockSize codec memory following
  let memory := setTag codec memory (footer codec memory ptr) 0 0
  let memory := setTag codec memory (header ptr) size 0
  let memory := setTag codec memory (footer codec memory following) size 0
  setTag codec memory (header following) 0 0

def mergeBoth (memory : Bytes) (prev ptr following : Int) : Bytes :=
  let size := blockSize codec memory ptr + blockSize codec memory prev +
    blockSize codec memory following
  let memory := setTag codec memory (footer codec memory prev) 0 0
  let memory := setTag codec memory (header prev) size 0
  let memory := setTag codec memory (footer codec memory ptr) 0 0
  let memory := setTag codec memory (header ptr) 0 0
  let memory := setTag codec memory (footer codec memory following) size 0
  setTag codec memory (header following) 0 0

/-- Merge a free block with its free neighbours.  A missing neighbour counts as
allocated. -/
def coalesce (memory : Bytes) (ptr : Int) : Bytes :=
  let prev := previous codec memory ptr
  let following := next codec memory ptr
  let allocPrevious := prev.elim 1 (blockFlag codec memory)
  let allocNext := following.elim 1 (blockFlag codec memory)
  if allocPrevious = 1 ∧ allocNext = 1 then memory
  else if allocPrevious = 0 ∧ allocNext = 1 then
    mergePrevious codec memory (prev.getD 0) ptr
  else if allocPrevious = 1 ∧ allocNext = 0 then
    mergeNext codec memory ptr (following.getD 0)
  else if allocPrevious = 0 ∧ allocNext = 0 then
    mergeBoth codec memory (prev.getD 0) ptr (following.getD 0)
  else memory

/-- Clear the allocated bit of a block and merge it. -/
def release (memory : Bytes) (ptr : Int) : Bytes :=
  let size := blockSize codec memory ptr
  let memory := setTag codec memory (header ptr) size 0
  let memory := setTag codec memory (footer codec memory ptr) size 0
  coalesce codec memory ptr

/-- The first free block of at least `extent` bytes, walking from `ptr` to the
end word of size zero; the outer `none` means that the fuel ran out. -/
def firstFit (memory : Bytes) (extent : Int) : Nat → Int → Option (Option Int)
  | 0, _ => none
  | fuel + 1, ptr =>
      if blockSize codec memory ptr = 0 then some none
      else if blockFlag codec memory ptr ≠ 1 ∧
          extent ≤ blockSize codec memory ptr then some (some ptr)
      else firstFit memory extent fuel (ptr + blockSize codec memory ptr)

def split (memory : Bytes) (ptr extent difference : Int) : Bytes :=
  let memory := setTag codec memory (footer codec memory ptr) difference 0
  let memory := setTag codec memory (header ptr) extent 1
  let memory := setTag codec memory (ptr + extent - 8) extent 1
  setTag codec memory (ptr + extent - 8 + 4) difference 0

def occupy (memory : Bytes) (ptr oldSize : Int) : Bytes :=
  let memory := setTag codec memory (header ptr) oldSize 1
  setTag codec memory (footer codec memory ptr) oldSize 1

structure Region (memory : Bytes) (start : Int) (blocks : List Block) :
    Prop where
  aligned : 4 ∣ start
  small : (total blocks : Int) < codec.limit
  tiles : Tiles codec memory start blocks
  before : codec.size (memory.load (start - 4)) = 0
  after : memory.load (start + total blocks) = codec.encode 0 1

variable {codec} {memory : Bytes} {start : Int} {left right : List Block}
  {block : Block}

theorem size_tag (hsmall : (block.size : Int) < codec.limit) :
    codec.size (block.tag codec) = block.size :=
  codec.size_encode _ _ (by omega) hsmall
    (Int.ofNat_dvd.mpr block.aligned) block.flag_cases

theorem flag_tag (hsmall : (block.size : Int) < codec.limit) :
    codec.flag (block.tag codec) = block.flag :=
  codec.flag_encode _ _ (by omega) hsmall
    (Int.ofNat_dvd.mpr block.aligned) block.flag_cases

theorem limit_pos (hsmall : (total left : Int) < codec.limit) :
    0 < codec.limit := by omega

theorem size_end (hlimit : 0 < codec.limit) :
    codec.size (codec.encode 0 1) = 0 :=
  codec.size_encode 0 1 (by omega) hlimit (by simp) (by simp)

theorem flag_end (hlimit : 0 < codec.limit) :
    codec.flag (codec.encode 0 1) = 1 :=
  codec.flag_encode 0 1 (by omega) hlimit (by simp) (by simp)

/-- What the words of one block in the middle of a region say. -/
structure Located (codec : TagCodec) (memory : Bytes) (ptr : Int)
    (block : Block) : Prop where
  small : (block.size : Int) < codec.limit
  header : memory.load (ptr - 4) = block.tag codec
  footer : memory.load (ptr + block.size - 8) = block.tag codec

theorem Located.size_eq {ptr : Int} (h : Located codec memory ptr block) :
    blockSize codec memory ptr = block.size := by
  rw [blockSize, BoundaryTag.header, h.header, size_tag h.small]

theorem Located.flag_eq {ptr : Int} (h : Located codec memory ptr block) :
    blockFlag codec memory ptr = block.flag := by
  rw [blockFlag, BoundaryTag.header, h.header, flag_tag h.small]

theorem Located.footer_eq {ptr : Int} (h : Located codec memory ptr block) :
    BoundaryTag.footer codec memory ptr = ptr + block.size - 8 := by
  rw [BoundaryTag.footer, h.size_eq]

theorem Located.previous_eq {ptr : Int} (h : Located codec memory ptr block) :
    previous codec memory (ptr + block.size) = some ptr := by
  have hmin := block.minimal
  have hsize : codec.size (memory.load (ptr + block.size - 8)) = block.size := by
    rw [h.footer, size_tag h.small]
  simp only [previous, hsize]
  rw [if_neg (by omega)]
  congr 1
  omega

theorem Region.located (h : Region codec memory start (left ++ block :: right)) :
    Located codec memory (start + total left + 4) block := by
  have hsmall := h.small
  have htiles := (Tiles.append_iff codec).mp h.tiles
  obtain ⟨-, hheader, hfooter, -⟩ := htiles
  simp only [total_append, total_cons] at hsmall
  refine ⟨by omega, ?_, ?_⟩
  · rw [← hheader]
    congr 1
    omega
  · rw [← hfooter]
    congr 1
    omega

theorem Region.firstFit_spec {blocks : List Block} (extent : Int) {fuel : Nat}
    (h : Region codec memory start (left ++ blocks))
    (hfuel : blocks.length < fuel) :
    (firstFit codec memory extent fuel (start + total left + 4) = some none ∧
        ∀ block ∈ blocks, block.allocated = true ∨ (block.size : Int) < extent) ∨
      ∃ before block after, blocks = before ++ block :: after ∧
        block.allocated = false ∧ extent ≤ block.size ∧
        (∀ other ∈ before, other.allocated = true ∨ (other.size : Int) < extent) ∧
        firstFit codec memory extent fuel (start + total left + 4) =
          some (some (start + total (left ++ before) + 4)) := by
  induction blocks generalizing left fuel with
  | nil =>
      obtain ⟨fuel, rfl⟩ : ∃ n, fuel = n + 1 := ⟨fuel - 1, by simp at hfuel; omega⟩
      have hend : blockSize codec memory (start + total left + 4) = 0 := by
        have hafter := h.after
        rw [List.append_nil] at hafter
        rw [blockSize, header, Int.add_sub_cancel, hafter,
          size_end (limit_pos h.small)]
      left
      exact ⟨by simp [firstFit, hend], by simp⟩
  | cons block rest ih =>
      obtain ⟨fuel, rfl⟩ : ∃ n, fuel = n + 1 := ⟨fuel - 1, by omega⟩
      have hmin := block.minimal
      have hloc := h.located
      have hnonzero : ¬ (block.size : Int) = 0 := by omega
      simp only [firstFit, hloc.size_eq, hloc.flag_eq, if_neg hnonzero]
      by_cases hfit : block.flag ≠ 1 ∧ extent ≤ (block.size : Int)
      · right
        have hfree : block.allocated = false := by
          cases hblock : block.allocated with
          | false => rfl
          | true => exact absurd (Block.flag_of_allocated hblock) hfit.1
        exact ⟨[], block, rest, rfl, hfree, hfit.2, by simp, by simp [if_pos hfit]⟩
      · have hskip : block.allocated = true ∨ (block.size : Int) < extent := by
          cases hblock : block.allocated with
          | true => exact Or.inl rfl
          | false =>
              right
              rw [Block.flag_of_free hblock] at hfit
              omega
        have hstep : start + (total left : Int) + 4 + block.size =
            start + total (left ++ [block]) + 4 := by
          simp only [total_append, total_cons, total_nil]
          omega
        rw [if_neg hfit, hstep]
        have hrest : Region codec memory start ((left ++ [block]) ++ rest) := by
          simpa using h
        rcases ih hrest (by simp at hfuel; omega) with
          ⟨hnone, hall⟩ | ⟨before, found, after, heq, hfree, hroom, hall, hsome⟩
        · left
          exact ⟨hnone, by simpa using ⟨hskip, hall⟩⟩
        · right
          refine ⟨block :: before, found, after, by simp [heq], hfree, hroom, ?_, ?_⟩
          · simpa using ⟨hskip, hall⟩
          · simpa using hsome

theorem Region.congr {blocks : List Block} {other : Bytes}
    (h : Region codec memory start blocks)
    (hload : ∀ x, 4 ∣ x → (tagAt codec start blocks x).isSome ∨
      x = start - 4 ∨ x = start + total blocks → other.load x = memory.load x) :
    Region codec other start blocks := by
  have haligned := h.aligned
  have htotal := four_dvd_total blocks
  refine ⟨haligned, h.small, ?_, ?_, ?_⟩
  · rw [tiles_iff]
    intro x word hx
    rw [hload x (tagAt_aligned codec haligned hx) (Or.inl (by simp [hx]))]
    exact (tiles_iff codec).mp h.tiles x word hx
  · rw [hload (start - 4) (by omega) (Or.inr (Or.inl rfl))]
    exact h.before
  · rw [hload _ (by omega) (Or.inr (Or.inr rfl))]
    exact h.after

theorem tag_inj {first second : Block} (hfirst : (first.size : Int) < codec.limit)
    (hsecond : (second.size : Int) < codec.limit)
    (h : first.tag codec = second.tag codec) : first = second := by
  have hsize : (first.size : Int) = second.size := by
    rw [← size_tag hfirst, ← size_tag hsecond, h]
  have hflag : first.flag = second.flag := by
    rw [← flag_tag hfirst, ← flag_tag hsecond, h]
  apply Block.ext
  · exact Int.ofNat.inj hsize
  · cases hallocated : first.allocated <;> cases hallocated' : second.allocated <;>
      simp_all [Block.flag]

/-- The headers of a region tell its blocks. -/
theorem tiles_unique {first : List Block} : ∀ {second : List Block} {start : Int},
    Tiles codec memory start first → Tiles codec memory start second →
      (total first : Int) < codec.limit → (total second : Int) < codec.limit →
        memory.load (start + total first) = codec.encode 0 1 →
          memory.load (start + total second) = codec.encode 0 1 → first = second := by
  have hend : ∀ {block : Block}, (block.size : Int) < codec.limit →
      block.tag codec ≠ codec.encode 0 1 := by
    intro block hsmall heq
    have hmin := block.minimal
    have hzero := size_tag hsmall
    rw [heq, size_end (by omega)] at hzero
    omega
  induction first with
  | nil =>
      intro second start _ hsecond _ hsmall hafter _
      cases second with
      | nil => rfl
      | cons block rest =>
          rw [total_nil, Int.natCast_zero, Int.add_zero, hsecond.1] at hafter
          refine absurd hafter (hend ?_)
          rw [total_cons] at hsmall
          omega
  | cons block rest ih =>
      intro second start hfirst hsecond hsmall hsmall' hafter hafter'
      rw [total_cons] at hsmall hafter
      cases second with
      | nil =>
          rw [total_nil, Int.natCast_zero, Int.add_zero, hfirst.1] at hafter'
          exact absurd hafter' (hend (by omega))
      | cons other others =>
          rw [total_cons] at hsmall' hafter'
          obtain rfl : block = other :=
            tag_inj (by omega) (by omega) (hfirst.1.symm.trans hsecond.1)
          rw [Int.natCast_add, ← Int.add_assoc] at hafter hafter'
          rw [ih hfirst.2.2 hsecond.2.2 (by omega) (by omega) hafter hafter']

theorem Region.unique {first second : List Block}
    (hfirst : Region codec memory start first)
    (hsecond : Region codec memory start second) : first = second :=
  tiles_unique hfirst.tiles hsecond.tiles hfirst.small hsecond.small hfirst.after
    hsecond.after

theorem Region.paint {old new : List Block}
    (h : Region codec memory start old) (htotal : total new = total old) :
    Region codec (paint codec memory start new) start new := by
  have haligned := h.aligned
  have hnew := four_dvd_total new
  refine ⟨haligned, by rw [htotal]; exact h.small,
    tiles_paint codec memory haligned new, ?_, ?_⟩
  · rw [load_paint codec _ _ haligned (by omega), tagAt_below codec (by omega)]
    exact h.before
  · rw [load_paint codec _ _ haligned (by omega), tagAt_above codec (by omega)]
    simpa [htotal] using h.after

theorem Region.repaint {old new : List Block} (word : BitVec 32)
    (h : Region codec memory start old) (htotal : total new = total old) :
    Region codec (Memory.paint codec (wipe word memory start old) start new)
      start new := by
  have haligned := h.aligned
  have hnew := four_dvd_total new
  refine ⟨haligned, by rw [htotal]; exact h.small,
    tiles_paint codec _ haligned new, ?_, ?_⟩
  · rw [load_paint codec _ _ haligned (by omega), tagAt_below codec (by omega),
      load_wipe codec _ _ _ haligned (by omega), tagAt_below codec (by omega)]
    exact h.before
  · rw [load_paint codec _ _ haligned (by omega), tagAt_above codec (by omega),
      load_wipe codec _ _ _ haligned (by omega), tagAt_above codec (by omega)]
    simpa [htotal] using h.after

theorem take_tags (hstart : 4 ∣ start)
    (htiles : Tiles codec memory start (left ++ [block] ++ right)) {head tail : Int}
    (hhead : head = start + total left) (htail : tail = start + total left + block.size - 4) :
    setTag codec (setTag codec memory head block.size 1) tail block.size 1 =
      Memory.paint codec memory start (left ++ [block.take] ++ right) := by
  have hleft := four_dvd_total left
  have hblock := block.aligned
  have hflag : block.take.flag = 1 := Block.flag_of_allocated rfl
  apply splice_paint_eq codec hstart htiles (by simp)
  intro x hx
  simp only [setTag, tagAt, Block.tag, hflag, Block.take_size, hhead, htail]
  rw [Bytes.load_store_aligned _ _ (by omega) hx,
    Bytes.load_store_aligned _ _ (by omega) hx]
  split
  · rw [if_pos (by omega)]
    rfl
  · split
    · rw [if_pos (by omega)]
      rfl
    · rw [if_neg (by omega)]
      rfl

theorem half_tags {extent : Nat} (hmin : 12 ≤ extent) (halign : 4 ∣ extent)
    (hroom : extent + 12 ≤ block.size) (hstart : 4 ∣ start)
    (htiles : Tiles codec memory start (left ++ [block] ++ right))
    {head tail frontTail restHead : Int} (hhead : head = start + total left)
    (htail : tail = start + total left + block.size - 4)
    (hfrontTail : frontTail = start + total left + extent - 4)
    (hrestHead : restHead = start + total left + extent) :
    setTag codec (setTag codec (setTag codec (setTag codec memory tail
        (block.size - extent) 0) head extent 1) frontTail extent 1) restHead
        (block.size - extent) 0 =
      Memory.paint codec memory start (left ++ [Block.front extent hmin halign,
        block.rest extent halign hroom] ++ right) := by
  have hleft := four_dvd_total left
  have hblock := block.aligned
  have hfront : (Block.front extent hmin halign).flag = 1 :=
    Block.flag_of_allocated rfl
  have hrest : (block.rest extent halign hroom).flag = 0 :=
    Block.flag_of_free rfl
  have hcast : ((block.size - extent : Nat) : Int) = block.size - extent := by
    omega
  apply splice_paint_eq codec hstart htiles (by simp; omega)
  intro x hx
  simp only [setTag, tagAt, Block.tag, hfront, hrest, Block.front_size, Block.rest_size,
    hcast, hhead, htail, hfrontTail, hrestHead]
  rw [Bytes.load_store_aligned _ _ (by omega) hx,
    Bytes.load_store_aligned _ _ (by omega) hx,
    Bytes.load_store_aligned _ _ (by omega) hx,
    Bytes.load_store_aligned _ _ (by omega) hx]
  by_cases hin : x = start + total left ∨ x = start + total left + extent - 4
  · rw [if_neg (by omega), if_pos hin]
    split
    · rfl
    · rw [if_pos (by omega)]
      rfl
  · rw [if_neg hin]
    by_cases hout : x = start + total left + extent ∨
        x = start + total left + extent + (block.size - extent) - 4
    · rw [if_pos hout]
      split
      · rfl
      · rw [if_neg (by omega), if_neg (by omega), if_pos (by omega)]
        rfl
    · rw [if_neg hout, if_neg (by omega), if_neg (by omega), if_neg (by omega),
        if_neg (by omega)]
      rfl

theorem occupy_eq (h : Region codec memory start (left ++ [block] ++ right)) :
    occupy codec memory (start + total left + 4) block.size =
      Memory.paint codec memory start (left ++ [block.take] ++ right) := by
  have hloc := Region.located (by simpa using h)
  have hblock := block.aligned
  have hsize : blockSize codec (setTag codec memory
      (header (start + total left + 4)) block.size 1)
      (start + total left + 4) = block.size := by
    rw [blockSize, setTag, Bytes.load_store_same]
    exact codec.size_encode _ _ (by omega) hloc.small (by omega) (by simp)
  simp only [occupy, BoundaryTag.footer, hsize]
  exact take_tags h.aligned h.tiles (by rw [header]; omega) (by omega)

theorem split_eq {extent : Nat} (hmin : 12 ≤ extent) (halign : 4 ∣ extent)
    (hroom : extent + 12 ≤ block.size)
    (h : Region codec memory start (left ++ [block] ++ right)) :
    split codec memory (start + total left + 4) extent (block.size - extent) =
      Memory.paint codec memory start (left ++ [Block.front extent hmin halign,
        block.rest extent halign hroom] ++ right) := by
  have hloc := Region.located (by simpa using h)
  simp only [split, hloc.footer_eq]
  exact half_tags hmin halign hroom h.aligned h.tiles (by rw [header]; omega) (by omega)
    (by omega) (by omega)

variable {first second third : Block}

theorem Region.located_second
    (h : Region codec memory start (left ++ first :: second :: right)) :
    Located codec memory (start + total left + 4 + first.size) second := by
  have hafter : Region codec memory start
      ((left ++ [first]) ++ second :: right) := by simpa using h
  have hnext := Region.located hafter
  simpa [Int.add_assoc, Int.add_comm, Int.add_left_comm] using hnext

theorem mergeNext_eq
    (h : Region codec memory start (left ++ [first, second] ++ right)) :
    mergeNext codec memory (start + total left + 4)
        (start + total left + 4 + first.size) =
      Memory.paint codec (wipe (codec.encode 0 0) memory start
          (left ++ [first, second] ++ right)) start
        (left ++ [first.merge second] ++ right) := by
  have hfirst : Located codec memory (start + total left + 4) first :=
    Region.located (by simpa using h)
  have hsecond : Located codec memory (start + total left + 4 + first.size)
      second := Region.located_second (by simpa using h)
  have hstart := h.aligned
  have hleft := four_dvd_total left
  have halign := first.aligned
  have halign' := second.aligned
  have hmin := first.minimal
  have hmin' := second.minimal
  have hflag : (first.merge second).flag = 0 := Block.flag_of_free rfl
  apply splice_eq codec hstart h.tiles (by simp)
  intro x hx
  simp only [mergeNext, hfirst.footer_eq, hfirst.size_eq, hsecond.size_eq]
  have hsize : blockSize codec (setTag codec (setTag codec memory
      (start + total left + 4 + first.size - 8) 0 0)
      (header (start + total left + 4)) (first.size + second.size) 0)
      (start + total left + 4 + first.size) = second.size := by
    simp only [blockSize, setTag, header]
    rw [Bytes.load_store_aligned _ _ (by omega) (by omega), if_neg (by omega),
      Bytes.load_store_aligned _ _ (by omega) (by omega), if_neg (by omega)]
    exact hsecond.size_eq
  simp only [BoundaryTag.footer, hsize]
  have hsum : ((first.size + second.size : Nat) : Int) =
      first.size + second.size := by omega
  simp only [setTag, header, tagAt, Block.tag, hflag, Block.merge_size]
  rw [Bytes.load_store_aligned _ _ (by omega) hx,
    Bytes.load_store_aligned _ _ (by omega) hx,
    Bytes.load_store_aligned _ _ (by omega) hx,
    Bytes.load_store_aligned _ _ (by omega) hx]
  rw [hsum]
  by_cases houter : x = start + total left ∨
      x = start + total left + (first.size + second.size) - 4
  · rw [if_pos houter, if_neg (by omega)]
    split
    · rfl
    · rw [if_pos (by omega)]
      rfl
  · rw [if_neg houter]
    by_cases hinner : x = start + total left + first.size ∨
        x = start + total left + first.size - 4
    · split
      · rw [if_neg (by omega), if_pos (by omega)]
        rfl
      · rw [if_neg (by omega), if_neg (by omega), if_pos (by omega),
          if_pos (by omega)]
        rfl
    · rw [if_neg (by omega), if_neg (by omega), if_neg (by omega),
        if_neg (by omega), if_neg (by omega), if_neg (by omega)]
      rfl

theorem mergePrevious_eq_mergeNext (prev ptr : Int) :
    mergePrevious codec memory prev ptr = mergeNext codec memory prev ptr := by
  simp only [mergePrevious, mergeNext, Int.add_comm]

theorem mergeBoth_eq
    (h : Region codec memory start (left ++ [first, second, third] ++ right)) :
    mergeBoth codec memory (start + total left + 4)
        (start + total left + 4 + first.size)
        (start + total left + 4 + first.size + second.size) =
      Memory.paint codec (wipe (codec.encode 0 0) memory start
          (left ++ [first, second, third] ++ right)) start
        (left ++ [first.merge (second.merge third)] ++ right) := by
  have hfirst : Located codec memory (start + total left + 4) first :=
    Region.located (by simpa using h)
  have hsecond : Located codec memory (start + total left + 4 + first.size)
      second := Region.located_second (by simpa using h)
  have hthird : Located codec memory
      (start + total left + 4 + first.size + second.size) third := by
    have hafter : Region codec memory start
        ((left ++ [first]) ++ second :: third :: right) := by simpa using h
    have hnext := Region.located_second hafter
    simpa [Int.add_assoc, Int.add_comm, Int.add_left_comm] using hnext
  have hstart := h.aligned
  have hleft := four_dvd_total left
  have halign := first.aligned
  have halign' := second.aligned
  have halign'' := third.aligned
  have hmin := first.minimal
  have hmin' := second.minimal
  have hmin'' := third.minimal
  have hflag : (first.merge (second.merge third)).flag = 0 :=
    Block.flag_of_free rfl
  have hsum : ((first.size + (second.size + third.size) : Nat) : Int) =
      second.size + first.size + third.size := by omega
  apply splice_eq codec hstart h.tiles (by simp)
  intro x hx
  simp only [mergeBoth, hfirst.footer_eq, hfirst.size_eq, hsecond.size_eq,
    hthird.size_eq]
  generalize hsize : (second.size + first.size + third.size : Int) = size
    at hsum ⊢
  -- the neighbours' headers are still in place when their footers are located
  have hmiddle : blockSize codec (setTag codec (setTag codec memory
      (start + total left + 4 + first.size - 8) 0 0)
      (header (start + total left + 4)) size 0)
      (start + total left + 4 + first.size) = second.size := by
    simp only [blockSize, setTag, header]
    rw [Bytes.load_store_aligned _ _ (by omega) (by omega), if_neg (by omega),
      Bytes.load_store_aligned _ _ (by omega) (by omega), if_neg (by omega)]
    exact hsecond.size_eq
  simp only [BoundaryTag.footer, hmiddle]
  have hlast : blockSize codec (setTag codec (setTag codec (setTag codec
      (setTag codec memory
        (start + total left + 4 + first.size - 8) 0 0)
        (header (start + total left + 4)) size 0)
      (start + total left + 4 + first.size + second.size - 8) 0 0)
      (header (start + total left + 4 + first.size)) 0 0)
      (start + total left + 4 + first.size + second.size) = third.size := by
    simp only [blockSize, setTag, header]
    rw [Bytes.load_store_aligned _ _ (by omega) (by omega), if_neg (by omega),
      Bytes.load_store_aligned _ _ (by omega) (by omega), if_neg (by omega),
      Bytes.load_store_aligned _ _ (by omega) (by omega), if_neg (by omega),
      Bytes.load_store_aligned _ _ (by omega) (by omega), if_neg (by omega)]
    exact hthird.size_eq
  simp only [hlast]
  simp only [setTag, header, tagAt, Block.tag, hflag, Block.merge_size]
  rw [Bytes.load_store_aligned _ _ (by omega) hx,
    Bytes.load_store_aligned _ _ (by omega) hx,
    Bytes.load_store_aligned _ _ (by omega) hx,
    Bytes.load_store_aligned _ _ (by omega) hx,
    Bytes.load_store_aligned _ _ (by omega) hx,
    Bytes.load_store_aligned _ _ (by omega) hx]
  rw [hsum]
  by_cases houter : x = start + total left ∨ x = start + total left + size - 4
  · rw [if_pos houter, if_neg (by omega)]
    split
    · rfl
    · rw [if_neg (by omega), if_neg (by omega), if_pos (by omega)]
      rfl
  · rw [if_neg houter]
    by_cases hinner : x = start + total left + first.size - 4 ∨
        x = start + total left + first.size ∨
        x = start + total left + first.size + second.size - 4 ∨
        x = start + total left + first.size + second.size
    · have hzero : (if x = start + total left ∨
            x = start + total left + first.size - 4 then
              some (codec.encode first.size first.flag)
          else if x = start + total left + first.size ∨
              x = start + total left + first.size + second.size - 4 then
                some (codec.encode second.size second.flag)
          else if x = start + total left + first.size + second.size ∨
              x = start + total left + first.size + second.size +
                third.size - 4 then some (codec.encode third.size third.flag)
          else none).isSome := by
        split
        · rfl
        · split
          · rfl
          · rw [if_pos (by omega)]
            rfl
      obtain ⟨tag, htag⟩ := Option.isSome_iff_exists.mp hzero
      rw [htag, if_neg (by omega : ¬ x = start + total left + 4 + first.size +
        second.size + third.size - 8), if_neg (by omega : ¬ x = start +
        total left + 4 - 4)]
      simp only [Option.getD_none, Option.elim_some]
      split
      · rfl
      · split
        · rfl
        · split
          · rfl
          · rw [if_pos (by omega)]
    · rw [if_neg (by omega), if_neg (by omega), if_neg (by omega),
        if_neg (by omega), if_neg (by omega), if_neg (by omega),
        if_neg (by omega), if_neg (by omega), if_neg (by omega)]
      rfl

theorem previous_closed
    (h : Region codec memory start (left ++ block :: right))
    (hleft : ∀ last ∈ left.getLast?, last.allocated = true) :
    (previous codec memory (start + total left + 4)).elim 1
      (blockFlag codec memory) = 1 := by
  rcases List.eq_nil_or_concat left with rfl | ⟨before, last, rfl⟩
  · have hzero : codec.size (memory.load (start + total [] + 4 - 8)) = 0 := by
      have hbefore := h.before
      rw [total_nil]
      rwa [show start + ((0 : Nat) : Int) + 4 - 8 = start - 4 by omega]
    simp only [previous, if_pos hzero]
    rfl
  · rw [List.concat_eq_append] at h hleft ⊢
    have hloc : Located codec memory (start + total before + 4) last :=
      Region.located (by simpa using h)
    have hlast : last.allocated = true := hleft last (by simp)
    have hptr : start + (total (before ++ [last]) : Int) + 4 =
        start + total before + 4 + last.size := by
      simp only [total_append, total_cons, total_nil]
      omega
    rw [hptr, hloc.previous_eq]
    simpa [Block.flag_of_allocated hlast] using hloc.flag_eq

theorem previous_open
    (h : Region codec memory start (left ++ first :: second :: right)) :
    previous codec memory (start + total left + 4 + first.size) =
      some (start + total left + 4) :=
  (Region.located h).previous_eq

theorem next_open
    (h : Region codec memory start (left ++ first :: second :: right)) :
    next codec memory (start + total left + 4) =
      some (start + total left + 4 + first.size) := by
  have hsecond := Region.located_second h
  have hmin := second.minimal
  simp only [next, (Region.located h).size_eq, hsecond.size_eq]
  rw [if_neg (by omega)]

theorem next_closed
    (h : Region codec memory start (left ++ block :: right))
    (hright : ∀ first ∈ right.head?, first.allocated = true) :
    (next codec memory (start + total left + 4)).elim 1
      (blockFlag codec memory) = 1 := by
  cases right with
  | nil =>
      have hafter := h.after
      have hend : start + (total left : Int) + 4 + block.size - 4 =
          start + total (left ++ [block]) := by
        simp only [total_append, total_cons, total_nil]
        omega
      have hlimit := limit_pos h.small
      have hnone : next codec memory (start + total left + 4) = none := by
        simp only [next, (Region.located h).size_eq]
        simp only [blockSize, blockFlag, header, hend, hafter,
          size_end hlimit, flag_end hlimit]
        simp
      rw [hnone]
      rfl
  | cons first right =>
      have hfirst : first.allocated = true := hright first rfl
      rw [next_open h]
      simpa [Block.flag_of_allocated hfirst] using
        (Region.located_second h).flag_eq

/-- Coalescing a free block between merged neighbours merges the whole list. -/
theorem coalesce_eq
    (h : Region codec memory start (left ++ block :: right))
    (hfree : block.allocated = false)
    (hleft : NoAdjacentFree left) (hright : NoAdjacentFree right) :
    coalesce codec memory (start + total left + 4) =
      Memory.paint codec (wipe (codec.encode 0 0) memory start
          (left ++ block :: right)) start
        (mergeFree (left ++ block :: right)) := by
  have hrightCases : (∀ first ∈ right.head?, first.allocated = true) ∨
      ∃ first rest, right = first :: rest ∧ first.allocated = false := by
    cases right with
    | nil => exact Or.inl (by simp)
    | cons first rest =>
        cases hfirst : first.allocated with
        | true => exact Or.inl (by simp [hfirst])
        | false => exact Or.inr ⟨first, rest, rfl, hfirst⟩
  have hleftCases : (∀ last ∈ left.getLast?, last.allocated = true) ∨
      ∃ before last, left = before ++ [last] ∧ last.allocated = false := by
    rcases List.eq_nil_or_concat left with rfl | ⟨before, last, rfl⟩
    · exact Or.inl (by simp)
    · cases hlast : last.allocated with
      | true => exact Or.inl (by simp [hlast])
      | false => exact Or.inr ⟨before, last, List.concat_eq_append, hlast⟩
  rcases hleftCases with hclosed | ⟨before, last, rfl, hlast⟩
  · rcases hrightCases with hclosedRight | ⟨first, rest, rfl, hfirst⟩
    · rw [mergeFree_append hleft hclosed, mergeFree_cons,
        mergeFree_of_chain hright, joinFront_closed hclosedRight]
      simp only [coalesce, previous_closed h hclosed, next_closed h hclosedRight]
      exact (paint_wipe_self codec _ h.aligned h.tiles).symm
    · rw [mergeFree_append hleft hclosed, mergeFree_cons,
        mergeFree_of_chain hright, joinFront_merge hfree hfirst]
      have hflag : blockFlag codec memory
          (start + total left + 4 + block.size) = 0 := by
        rw [(Region.located_second h).flag_eq, Block.flag_of_free hfirst]
      simp only [coalesce, previous_closed h hclosed, next_open h,
        Option.elim_some, hflag, Option.getD_some]
      have hpair : Region codec memory start (left ++ [block, first] ++ rest) := by
        simpa using h
      simpa using mergeNext_eq hpair
  · have hbefore := hleft.closed_of_append hlast
    have hchain := (List.isChain_append.mp hleft).1
    have hsplit : Region codec memory start
        (before ++ last :: block :: right) := by simpa using h
    have hptr : start + (total (before ++ [last]) : Int) + 4 =
        start + total before + 4 + last.size := by
      simp only [total_append, total_cons, total_nil]
      omega
    have hflag : blockFlag codec memory (start + total before + 4) = 0 := by
      rw [(Region.located hsplit).flag_eq, Block.flag_of_free hlast]
    have happend : before ++ [last] ++ block :: right =
        before ++ last :: block :: right := by simp
    rw [happend, mergeFree_append hchain hbefore]
    simp only [mergeFree_cons]
    rw [mergeFree_of_chain hright]
    rcases hrightCases with hclosedRight | ⟨first, rest, rfl, hfirst⟩
    · rw [joinFront_closed hclosedRight, joinFront_merge hlast hfree]
      simp only [coalesce, next_closed h hclosedRight]
      simp only [hptr, previous_open hsplit, Option.elim_some, hflag,
        Option.getD_some, mergePrevious_eq_mergeNext]
      have hpair : Region codec memory start
          (before ++ [last, block] ++ right) := by simpa using hsplit
      simpa using mergeNext_eq hpair
    · rw [joinFront_merge hfree hfirst, joinFront_merge hlast rfl]
      have hnext : next codec memory (start + total before + 4 + last.size) =
          some (start + total before + 4 + last.size + block.size) := by
        have hopen := next_open h
        rwa [hptr] at hopen
      have hflagNext : blockFlag codec memory
          (start + total before + 4 + last.size + block.size) = 0 := by
        have hlocated := (Region.located_second h).flag_eq
        rwa [hptr, Block.flag_of_free hfirst] at hlocated
      simp only [coalesce, hptr, previous_open hsplit, hnext,
        Option.elim_some, hflag, hflagNext, Option.getD_some]
      have htriple : Region codec memory start
          (before ++ [last, block, first] ++ rest) := by simpa using hsplit
      simpa using mergeBoth_eq htriple

theorem mark_eq (h : Region codec memory start (left ++ block :: right)) :
    setTag codec (setTag codec memory
        (header (start + total left + 4)) block.size 0)
        (BoundaryTag.footer codec (setTag codec memory
          (header (start + total left + 4)) block.size 0)
          (start + total left + 4)) block.size 0 =
      Memory.paint codec memory start (left ++ [block.free] ++ right) := by
  have hloc := Region.located h
  have hstart := h.aligned
  have hdvd := four_dvd_total left
  have halign := block.aligned
  have hmin := block.minimal
  have hflag : block.free.flag = 0 := Block.flag_of_free rfl
  have htiles : Tiles codec memory start (left ++ [block] ++ right) := by
    simpa using h.tiles
  apply splice_paint_eq codec hstart htiles (by simp)
  intro x hx
  have hsize : blockSize codec (setTag codec memory
      (header (start + total left + 4)) block.size 0)
      (start + total left + 4) = block.size := by
    rw [blockSize, setTag, Bytes.load_store_same]
    exact codec.size_encode _ _ (by omega) hloc.small (by omega) (by simp)
  simp only [BoundaryTag.footer, hsize]
  simp only [setTag, header, tagAt, Block.tag, hflag, Block.free_size]
  rw [Bytes.load_store_aligned _ _ (by omega) hx,
    Bytes.load_store_aligned _ _ (by omega) hx]
  split
  · rw [if_pos (by omega)]
    rfl
  · split
    · rw [if_pos (by omega)]
      rfl
    · rw [if_neg (by omega)]
      rfl

theorem Region.mark (h : Region codec memory start (left ++ block :: right)) :
    Region codec (Memory.paint codec memory start (left ++ [block.free] ++ right))
      start (left ++ block.free :: right) := by
  have htotal : total (left ++ [block.free] ++ right) =
      total (left ++ block :: right) := by simp
  simpa using Region.paint h htotal

/-- Releasing a block marks it free and merges the list. -/
theorem release_eq
    (h : Region codec memory start (left ++ block :: right))
    (hleft : NoAdjacentFree left) (hright : NoAdjacentFree right) :
    release codec memory (start + total left + 4) =
      Memory.paint codec (wipe (codec.encode 0 0) memory start
          (left ++ block :: right)) start
        (mergeFree (left ++ block.free :: right)) := by
  have hloc := Region.located h
  have hsizes : (left ++ [block.free] ++ right).map Block.size =
      (left ++ block :: right).map Block.size := by simp
  simp only [release, hloc.size_eq, mark_eq h]
  rw [coalesce_eq (Region.mark h) rfl hleft hright]
  congr 1
  simpa using wipe_paint codec (codec.encode 0 0) memory h.aligned hsizes

end RutgersOS.Memory.BoundaryTag
