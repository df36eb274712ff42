import RutgersOS.Memory.BoundaryTag

namespace RutgersOS.Memory.BoundaryTag

/-! The operations of an allocator that may touch the words of one range only;
`none` stands for an access outside. -/

structure Bounds where
  low : Int
  high : Int

def Bounds.Inside (bounds : Bounds) (address : Int) : Prop :=
  bounds.low ≤ address ∧ address + 4 ≤ bounds.high

instance (bounds : Bounds) (address : Int) : Decidable (bounds.Inside address) :=
  inferInstanceAs (Decidable (_ ∧ _))

namespace Bounded

variable (codec : TagCodec) (bounds : Bounds)

def readWord (memory : Bytes) (address : Int) : Option (BitVec 32) :=
  if bounds.Inside address then some (memory.load address) else none

def setTag (memory : Bytes) (address size flag : Int) : Option Bytes :=
  if bounds.Inside address then
    some (BoundaryTag.setTag codec memory address size flag)
  else none

def blockSize (memory : Bytes) (ptr : Int) : Option Int :=
  (readWord bounds memory (header ptr)).map codec.size

def blockFlag (memory : Bytes) (ptr : Int) : Option Int :=
  (readWord bounds memory (header ptr)).map codec.flag

def footer (memory : Bytes) (ptr : Int) : Option Int :=
  (blockSize codec bounds memory ptr).map fun size => ptr + size - 8

def previous (memory : Bytes) (ptr : Int) : Option (Option Int) :=
  (readWord bounds memory (ptr - 8)).map fun word =>
    if codec.size word = 0 then none else some (ptr - codec.size word)

def next (memory : Bytes) (ptr : Int) : Option (Option Int) := do
  let size ← blockSize codec bounds memory ptr
  let followingSize ← blockSize codec bounds memory (ptr + size)
  let followingFlag ← blockFlag codec bounds memory (ptr + size)
  some (if followingSize = 0 ∧ followingFlag = 1 then none else some (ptr + size))

def unite (memory : Bytes) (first second size : Int) : Option Bytes := do
  let firstFooter ← footer codec bounds memory first
  let memory ← setTag codec bounds memory firstFooter 0 0
  let memory ← setTag codec bounds memory (header first) size 0
  let secondFooter ← footer codec bounds memory second
  let memory ← setTag codec bounds memory secondFooter size 0
  setTag codec bounds memory (header second) 0 0

def mergePrevious (memory : Bytes) (prev ptr : Int) : Option Bytes := do
  let size ← blockSize codec bounds memory ptr
  let prevSize ← blockSize codec bounds memory prev
  unite codec bounds memory prev ptr (size + prevSize)

def mergeNext (memory : Bytes) (ptr following : Int) : Option Bytes := do
  let size ← blockSize codec bounds memory ptr
  let followingSize ← blockSize codec bounds memory following
  unite codec bounds memory ptr following (size + followingSize)

def mergeBoth (memory : Bytes) (prev ptr following : Int) : Option Bytes := do
  let ptrSize ← blockSize codec bounds memory ptr
  let prevSize ← blockSize codec bounds memory prev
  let followingSize ← blockSize codec bounds memory following
  let size := ptrSize + prevSize + followingSize
  let prevFooter ← footer codec bounds memory prev
  let memory ← setTag codec bounds memory prevFooter 0 0
  let memory ← setTag codec bounds memory (header prev) size 0
  let ptrFooter ← footer codec bounds memory ptr
  let memory ← setTag codec bounds memory ptrFooter 0 0
  let memory ← setTag codec bounds memory (header ptr) 0 0
  let followingFooter ← footer codec bounds memory following
  let memory ← setTag codec bounds memory followingFooter size 0
  setTag codec bounds memory (header following) 0 0

def coalesce (memory : Bytes) (ptr : Int) : Option Bytes := do
  let prev ← previous codec bounds memory ptr
  let following ← next codec bounds memory ptr
  let allocPrevious ← prev.elim (some 1) (blockFlag codec bounds memory)
  let allocNext ← following.elim (some 1) (blockFlag codec bounds memory)
  if allocPrevious = 1 ∧ allocNext = 1 then some memory
  else if allocPrevious = 0 ∧ allocNext = 1 then
    mergePrevious codec bounds memory (prev.getD 0) ptr
  else if allocPrevious = 1 ∧ allocNext = 0 then
    mergeNext codec bounds memory ptr (following.getD 0)
  else if allocPrevious = 0 ∧ allocNext = 0 then
    mergeBoth codec bounds memory (prev.getD 0) ptr (following.getD 0)
  else some memory

def release (memory : Bytes) (ptr : Int) : Option Bytes := do
  let size ← blockSize codec bounds memory ptr
  let memory ← setTag codec bounds memory (header ptr) size 0
  let ptrFooter ← footer codec bounds memory ptr
  let memory ← setTag codec bounds memory ptrFooter size 0
  coalesce codec bounds memory ptr

/-- The outer `none` also stands for a walk that the fuel cut off. -/
def firstFit (memory : Bytes) (extent : Int) : Nat → Int → Option (Option Int)
  | 0, _ => none
  | fuel + 1, ptr => do
      let size ← blockSize codec bounds memory ptr
      let flag ← blockFlag codec bounds memory ptr
      if size = 0 then some none
      else if flag ≠ 1 ∧ extent ≤ size then some (some ptr)
      else firstFit memory extent fuel (ptr + size)

def split (memory : Bytes) (ptr extent difference : Int) : Option Bytes := do
  let ptrFooter ← footer codec bounds memory ptr
  let memory ← setTag codec bounds memory ptrFooter difference 0
  let memory ← setTag codec bounds memory (header ptr) extent 1
  let memory ← setTag codec bounds memory (ptr + extent - 8) extent 1
  setTag codec bounds memory (ptr + extent - 8 + 4) difference 0

def occupy (memory : Bytes) (ptr oldSize : Int) : Option Bytes := do
  let memory ← setTag codec bounds memory (header ptr) oldSize 1
  let ptrFooter ← footer codec bounds memory ptr
  setTag codec bounds memory ptrFooter oldSize 1

variable {codec bounds} {memory : Bytes} {start ptr : Int} {left right : List Block}
  {block first second third : Block}

theorem setTag_eq {address : Int} (h : bounds.Inside address) (size flag : Int) :
    setTag codec bounds memory address size flag =
      some (BoundaryTag.setTag codec memory address size flag) :=
  if_pos h

theorem blockSize_eq (h : bounds.Inside (header ptr)) :
    blockSize codec bounds memory ptr =
      some (BoundaryTag.blockSize codec memory ptr) := by
  rw [blockSize, readWord, if_pos h]
  rfl

theorem blockFlag_eq (h : bounds.Inside (header ptr)) :
    blockFlag codec bounds memory ptr =
      some (BoundaryTag.blockFlag codec memory ptr) := by
  rw [blockFlag, readWord, if_pos h]
  rfl

theorem footer_eq (h : bounds.Inside (header ptr)) :
    footer codec bounds memory ptr = some (BoundaryTag.footer codec memory ptr) := by
  rw [footer, blockSize_eq h]
  rfl

theorem previous_eq (h : bounds.Inside (ptr - 8)) :
    previous codec bounds memory ptr =
      some (BoundaryTag.previous codec memory ptr) := by
  rw [previous, readWord, if_pos h]
  rfl

theorem next_eq (hptr : bounds.Inside (header ptr))
    (hnext : bounds.Inside
      (header (ptr + BoundaryTag.blockSize codec memory ptr))) :
    next codec bounds memory ptr = some (BoundaryTag.next codec memory ptr) := by
  simp only [next, blockSize_eq hptr, blockSize_eq hnext, blockFlag_eq hnext,
    Option.bind_eq_bind, Option.bind_some]
  rfl

theorem blockSize_setTag {address : Int} (haddress : 4 ∣ address) (hptr : 4 ∣ ptr)
    (hne : address ≠ ptr - 4) (size flag : Int) :
    BoundaryTag.blockSize codec (BoundaryTag.setTag codec memory address size flag)
      ptr = BoundaryTag.blockSize codec memory ptr := by
  simp only [BoundaryTag.blockSize, BoundaryTag.setTag, header]
  rw [Bytes.load_store_aligned _ _ haddress (by omega), if_neg (Ne.symm hne)]

section Merges

variable (hptr : 4 ∣ ptr) (hfirst : Located codec memory ptr first)
  (hsecond : Located codec memory (ptr + first.size) second)
include hptr hfirst hsecond

theorem second_size (size : Int) :
    BoundaryTag.blockSize codec (BoundaryTag.setTag codec (BoundaryTag.setTag codec
      memory (BoundaryTag.footer codec memory ptr) 0 0) (header ptr) size 0)
      (ptr + first.size) = second.size := by
  have hmin := first.minimal
  have halign := first.aligned
  have hmin' := second.minimal
  rw [hfirst.footer_eq, blockSize_setTag (by unfold header; omega) (by omega)
      (by unfold header; omega),
    blockSize_setTag (by omega) (by omega) (by omega), hsecond.size_eq]

variable (hlow : bounds.low ≤ ptr - 4)
include hlow

theorem unite_eq (hhigh : ptr - 4 + first.size + second.size ≤ bounds.high)
    (size : Int) : unite codec bounds memory ptr (ptr + first.size) size = some
      (let memory := BoundaryTag.setTag codec memory
        (BoundaryTag.footer codec memory ptr) 0 0
      let memory := BoundaryTag.setTag codec memory (header ptr) size 0
      let memory := BoundaryTag.setTag codec memory
        (BoundaryTag.footer codec memory (ptr + first.size)) size 0
      BoundaryTag.setTag codec memory (header (ptr + first.size)) 0 0) := by
  have hmin := first.minimal
  have hmin' := second.minimal
  have hsize := second_size hptr hfirst hsecond size
  have hheader : bounds.Inside (header ptr) := by
    unfold Bounds.Inside header
    omega
  have hheader' : bounds.Inside (header (ptr + first.size)) := by
    unfold Bounds.Inside header
    omega
  have hfooter : bounds.Inside (BoundaryTag.footer codec memory ptr) := by
    rw [hfirst.footer_eq]
    unfold Bounds.Inside
    omega
  have hfooter' : bounds.Inside (BoundaryTag.footer codec (BoundaryTag.setTag codec
      (BoundaryTag.setTag codec memory (BoundaryTag.footer codec memory ptr) 0 0)
      (header ptr) size 0) (ptr + first.size)) := by
    rw [BoundaryTag.footer, hsize]
    unfold Bounds.Inside
    omega
  simp only [unite, footer_eq hheader, Option.bind_eq_bind, Option.bind_some,
    setTag_eq hfooter, setTag_eq hheader, footer_eq hheader', setTag_eq hfooter',
    setTag_eq hheader']

theorem mergeNext_eq (hhigh : ptr - 4 + first.size + second.size ≤ bounds.high) :
    mergeNext codec bounds memory ptr (ptr + first.size) =
      some (BoundaryTag.mergeNext codec memory ptr (ptr + first.size)) := by
  have hmin := first.minimal
  have hmin' := second.minimal
  have hheader : bounds.Inside (header ptr) := by
    unfold Bounds.Inside header
    omega
  have hheader' : bounds.Inside (header (ptr + first.size)) := by
    unfold Bounds.Inside header
    omega
  simp only [mergeNext, blockSize_eq hheader, blockSize_eq hheader',
    Option.bind_eq_bind, Option.bind_some,
    unite_eq hptr hfirst hsecond hlow hhigh]
  rfl

theorem mergePrevious_eq (hhigh : ptr - 4 + first.size + second.size ≤ bounds.high) :
    mergePrevious codec bounds memory ptr (ptr + first.size) =
      some (BoundaryTag.mergePrevious codec memory ptr (ptr + first.size)) := by
  have hmin := first.minimal
  have hmin' := second.minimal
  have hheader : bounds.Inside (header ptr) := by
    unfold Bounds.Inside header
    omega
  have hheader' : bounds.Inside (header (ptr + first.size)) := by
    unfold Bounds.Inside header
    omega
  simp only [mergePrevious, blockSize_eq hheader, blockSize_eq hheader',
    Option.bind_eq_bind, Option.bind_some,
    unite_eq hptr hfirst hsecond hlow hhigh]
  rfl

theorem mergeBoth_eq
    (hthird : Located codec memory (ptr + first.size + second.size) third)
    (hhigh : ptr - 4 + first.size + second.size + third.size ≤ bounds.high) :
    mergeBoth codec bounds memory ptr (ptr + first.size)
        (ptr + first.size + second.size) =
      some (BoundaryTag.mergeBoth codec memory ptr (ptr + first.size)
        (ptr + first.size + second.size)) := by
  have hmin := first.minimal
  have halign := first.aligned
  have hmin' := second.minimal
  have halign' := second.aligned
  have hmin'' := third.minimal
  have hheader : bounds.Inside (header ptr) := by
    unfold Bounds.Inside header
    omega
  have hheader' : bounds.Inside (header (ptr + first.size)) := by
    unfold Bounds.Inside header
    omega
  have hheader'' : bounds.Inside (header (ptr + first.size + second.size)) := by
    unfold Bounds.Inside header
    omega
  have hfooter : bounds.Inside (BoundaryTag.footer codec memory ptr) := by
    rw [hfirst.footer_eq]
    unfold Bounds.Inside
    omega
  have hmiddle : ∀ size, BoundaryTag.footer codec
      (BoundaryTag.setTag codec (BoundaryTag.setTag codec memory
        (BoundaryTag.footer codec memory ptr) 0 0) (header ptr) size 0)
      (ptr + first.size) = ptr + first.size + second.size - 8 := by
    intro size
    rw [BoundaryTag.footer, second_size hptr hfirst hsecond size]
  have hfooter' : ∀ size, bounds.Inside (BoundaryTag.footer codec
      (BoundaryTag.setTag codec (BoundaryTag.setTag codec memory
        (BoundaryTag.footer codec memory ptr) 0 0) (header ptr) size 0)
      (ptr + first.size)) := by
    intro size
    rw [hmiddle size]
    unfold Bounds.Inside
    omega
  have hlast : ∀ size, bounds.Inside (BoundaryTag.footer codec
      (BoundaryTag.setTag codec (BoundaryTag.setTag codec (BoundaryTag.setTag codec
        (BoundaryTag.setTag codec memory (BoundaryTag.footer codec memory ptr) 0 0)
        (header ptr) size 0) (BoundaryTag.footer codec (BoundaryTag.setTag codec
          (BoundaryTag.setTag codec memory (BoundaryTag.footer codec memory ptr) 0 0)
          (header ptr) size 0) (ptr + first.size)) 0 0) (header (ptr + first.size)) 0 0)
      (ptr + first.size + second.size)) := by
    intro size
    rw [hmiddle size, hfirst.footer_eq, BoundaryTag.footer,
      blockSize_setTag (by unfold header; omega) (by omega) (by unfold header; omega),
      blockSize_setTag (by omega) (by omega) (by omega),
      blockSize_setTag (by unfold header; omega) (by omega) (by unfold header; omega),
      blockSize_setTag (by omega) (by omega) (by omega), hthird.size_eq]
    unfold Bounds.Inside
    omega
  simp only [mergeBoth, blockSize_eq hheader, blockSize_eq hheader',
    blockSize_eq hheader'', Option.bind_eq_bind, Option.bind_some, footer_eq hheader,
    setTag_eq hfooter, setTag_eq hheader, footer_eq hheader', setTag_eq (hfooter' _),
    setTag_eq hheader', footer_eq hheader'', setTag_eq (hlast _),
    setTag_eq hheader'']
  rfl

end Merges

theorem coalesce_located (hptr : 4 ∣ ptr) (hloc : Located codec memory ptr block)
    (hbefore : bounds.Inside (ptr - 8))
    (hafter : bounds.Inside (header (ptr + block.size)))
    (hprev : BoundaryTag.previous codec memory ptr = none ∨
      ∃ p last, BoundaryTag.previous codec memory ptr = some p ∧
        Located codec memory p last ∧ ptr = p + last.size ∧ bounds.low ≤ p - 4)
    (hnext : BoundaryTag.next codec memory ptr = none ∨
      ∃ first, BoundaryTag.next codec memory ptr = some (ptr + block.size) ∧
        Located codec memory (ptr + block.size) first ∧
          ptr + block.size - 4 + first.size ≤ bounds.high) :
    coalesce codec bounds memory ptr =
      some (BoundaryTag.coalesce codec memory ptr) := by
  have hmin := block.minimal
  unfold Bounds.Inside at hbefore
  unfold Bounds.Inside header at hafter
  have hheader : bounds.Inside (header ptr) := by
    unfold Bounds.Inside header
    omega
  have hfollowing := next_eq hheader
    (by rw [hloc.size_eq]; unfold Bounds.Inside header; exact hafter)
  have hflag : blockFlag codec bounds memory (ptr + block.size) =
      some (BoundaryTag.blockFlag codec memory (ptr + block.size)) :=
    blockFlag_eq (by unfold Bounds.Inside header; exact hafter)
  have hpush : ∀ {p : Prop} [Decidable p] (yes no : Bytes),
      (if p then some yes else some no) = some (if p then yes else no) := by
    intro p _ yes no
    exact (apply_ite some p yes no).symm
  rw [coalesce, previous_eq (by unfold Bounds.Inside; exact hbefore), hfollowing]
  rcases hprev with hnone | ⟨p, last, hsome, hlast, rfl, hlow⟩
  · rcases hnext with hend | ⟨first, hopen, hfirst, hhigh⟩
    · simp [BoundaryTag.coalesce, hnone, hend]
    · have hhigh' : ptr - 4 + block.size + first.size ≤ bounds.high := by omega
      have hlow' : bounds.low ≤ ptr - 4 := by omega
      have hmerge := mergeNext_eq hptr hloc hfirst hlow' hhigh'
      simp [BoundaryTag.coalesce, hnone, hopen, hflag, hmerge, hpush]
  · have hmin' := last.minimal
    have halign := last.aligned
    have hflag' : blockFlag codec bounds memory p =
        some (BoundaryTag.blockFlag codec memory p) := by
      refine blockFlag_eq ?_
      unfold Bounds.Inside header
      omega
    have hback := mergePrevious_eq (by omega) hlast hloc hlow (by omega)
    rcases hnext with hend | ⟨first, hopen, hfirst, hhigh⟩
    · simp [BoundaryTag.coalesce, hsome, hend, hflag', hback, hpush]
    · have hhigh' : p + last.size - 4 + block.size + first.size ≤ bounds.high := by
        omega
      have hlow' : bounds.low ≤ p + last.size - 4 := by omega
      have hmerge := mergeNext_eq hptr hloc hfirst hlow' hhigh'
      have hboth := mergeBoth_eq (by omega) hlast hloc hlow hfirst (by omega)
      simp [BoundaryTag.coalesce, hsome, hopen, hflag, hflag', hback, hmerge, hboth,
        hpush]

theorem previous_cases (h : Region codec memory start (left ++ block :: right)) :
    left = [] ∧ BoundaryTag.previous codec memory (start + total left + 4) = none ∨
      ∃ before last, left = before ++ [last] ∧
        BoundaryTag.previous codec memory (start + total left + 4) =
          some (start + total before + 4) ∧
        Located codec memory (start + total before + 4) last ∧
        start + (total left : Int) + 4 = start + total before + 4 + last.size := by
  rcases List.eq_nil_or_concat left with rfl | ⟨before, last, rfl⟩
  · refine Or.inl ⟨rfl, ?_⟩
    have hbefore := h.before
    rw [BoundaryTag.previous, total_nil,
      show start + ((0 : Nat) : Int) + 4 - 8 = start - 4 by omega, if_pos hbefore]
  · rw [List.concat_eq_append] at h ⊢
    have hsplit : Region codec memory start (before ++ last :: block :: right) := by
      simpa using h
    have hptr : start + (total (before ++ [last]) : Int) + 4 =
        start + total before + 4 + last.size := by
      simp only [total_append, total_cons, total_nil]
      omega
    refine Or.inr ⟨before, last, rfl, ?_, Region.located hsplit, hptr⟩
    rw [hptr]
    exact previous_open hsplit

theorem next_cases (h : Region codec memory start (left ++ block :: right)) :
    BoundaryTag.next codec memory (start + total left + 4) = none ∨
      ∃ first rest, right = first :: rest ∧
        BoundaryTag.next codec memory (start + total left + 4) =
          some (start + total left + 4 + block.size) ∧
        Located codec memory (start + total left + 4 + block.size) first := by
  cases right with
  | nil =>
      left
      have hafter := h.after
      have hlimit := limit_pos h.small
      have hend : start + (total left : Int) + 4 + block.size - 4 =
          start + total (left ++ [block]) := by
        simp only [total_append, total_cons, total_nil]
        omega
      simp only [BoundaryTag.next, (Region.located h).size_eq]
      simp only [BoundaryTag.blockSize, BoundaryTag.blockFlag, header, hend, hafter,
        size_end hlimit, flag_end hlimit]
      simp
  | cons first rest =>
      exact Or.inr ⟨first, rest, rfl, next_open h, Region.located_second h⟩

section Regions

variable {blocks : List Block} (hlow : bounds.low ≤ start)
  (hhigh : start + total blocks + 4 ≤ bounds.high)
include hlow hhigh

/-- The word before a region is read for its first block only. -/
theorem coalesce_eq (h : Region codec memory start blocks)
    (hblocks : blocks = left ++ block :: right)
    (hfirst : left = [] → bounds.low ≤ start - 4) :
    coalesce codec bounds memory (start + total left + 4) =
      some (BoundaryTag.coalesce codec memory (start + total left + 4)) := by
  subst hblocks
  have hmin := block.minimal
  have hstart := h.aligned
  have hdvd := four_dvd_total left
  simp only [total_append, total_cons] at hhigh
  refine coalesce_located (by omega) (Region.located h) ?_ ?_ ?_ ?_
  · unfold Bounds.Inside
    rcases previous_cases h with ⟨hnil, -⟩ | ⟨before, last, -, -, -, hptr⟩
    · have := hfirst hnil
      omega
    · have := last.minimal
      omega
  · unfold Bounds.Inside header
    omega
  · rcases previous_cases h with ⟨-, hnone⟩ | ⟨before, last, -, hsome, hlast, hptr⟩
    · exact Or.inl hnone
    · exact Or.inr ⟨_, last, hsome, hlast, hptr, by omega⟩
  · rcases next_cases h with hnone | ⟨first, rest, rfl, hsome, hnext⟩
    · exact Or.inl hnone
    · simp only [total_cons] at hhigh
      exact Or.inr ⟨first, hsome, hnext, by omega⟩

theorem header_inside (hblocks : blocks = left ++ block :: right) :
    bounds.Inside (header (start + total left + 4)) ∧
      bounds.Inside (start + total left + 4 + block.size - 8) := by
  have hmin := block.minimal
  subst hblocks
  simp only [total_append, total_cons] at hhigh
  unfold Bounds.Inside header
  omega

theorem release_eq (h : Region codec memory start blocks)
    (hblocks : blocks = left ++ block :: right)
    (hfirst : left = [] → bounds.low ≤ start - 4) :
    release codec bounds memory (start + total left + 4) =
      some (BoundaryTag.release codec memory (start + total left + 4)) := by
  subst hblocks
  have hloc := Region.located h
  obtain ⟨hheader, hfooter⟩ := header_inside hlow hhigh rfl
  have hsize : BoundaryTag.blockSize codec (BoundaryTag.setTag codec memory
      (header (start + total left + 4)) block.size 0) (start + total left + 4) =
        block.size := by
    rw [BoundaryTag.blockSize, BoundaryTag.setTag, Bytes.load_store_same]
    exact codec.size_encode _ _ (by omega) hloc.small
      (Int.ofNat_dvd.mpr block.aligned) (Or.inl rfl)
  have hinside : bounds.Inside (BoundaryTag.footer codec (BoundaryTag.setTag codec
      memory (header (start + total left + 4)) block.size 0)
      (start + total left + 4)) := by
    rw [BoundaryTag.footer, hsize]
    exact hfooter
  have hmerge := coalesce_eq hlow (by simpa using hhigh) (Region.mark h) rfl hfirst
  simp only [release, BoundaryTag.release, blockSize_eq hheader, hloc.size_eq,
    setTag_eq hheader, footer_eq hheader, setTag_eq hinside, mark_eq h,
    Option.bind_eq_bind, Option.bind_some, hmerge]

theorem occupy_eq (h : Region codec memory start blocks)
    (hblocks : blocks = left ++ block :: right) :
    occupy codec bounds memory (start + total left + 4) block.size =
      some (BoundaryTag.occupy codec memory (start + total left + 4) block.size) := by
  subst hblocks
  have hloc := Region.located h
  obtain ⟨hheader, hfooter⟩ := header_inside hlow hhigh rfl
  have hinside : bounds.Inside (BoundaryTag.footer codec (BoundaryTag.setTag codec
      memory (header (start + total left + 4)) block.size 1)
      (start + total left + 4)) := by
    rw [BoundaryTag.footer, BoundaryTag.blockSize, BoundaryTag.setTag,
      Bytes.load_store_same, codec.size_encode _ _ (by omega) hloc.small
        (Int.ofNat_dvd.mpr block.aligned) (Or.inr rfl)]
    exact hfooter
  simp only [occupy, BoundaryTag.occupy, setTag_eq hheader, footer_eq hheader,
    setTag_eq hinside, Option.bind_eq_bind, Option.bind_some]

theorem split_eq {extent : Nat} (hextent : 12 ≤ extent)
    (hroom : extent + 12 ≤ block.size) (h : Region codec memory start blocks)
    (hblocks : blocks = left ++ block :: right) :
    split codec bounds memory (start + total left + 4) extent (block.size - extent) =
      some (BoundaryTag.split codec memory (start + total left + 4) extent
        (block.size - extent)) := by
  subst hblocks
  have hloc := Region.located h
  obtain ⟨hheader, hfooter⟩ := header_inside hlow hhigh rfl
  have hinside : bounds.Inside (BoundaryTag.footer codec memory
      (start + total left + 4)) := by
    rw [hloc.footer_eq]
    exact hfooter
  have hcut : bounds.Inside (start + total left + 4 + extent - 8) ∧
      bounds.Inside (start + total left + 4 + extent - 8 + 4) := by
    unfold Bounds.Inside header at *
    omega
  simp only [split, BoundaryTag.split, footer_eq hheader, setTag_eq hinside,
    setTag_eq hheader, setTag_eq hcut.1, setTag_eq hcut.2, Option.bind_eq_bind,
    Option.bind_some]

theorem firstFit_eq (extent : Int) (h : Region codec memory start blocks)
    {fuel : Nat} (hblocks : blocks = left ++ right) (hfuel : right.length < fuel) :
    firstFit codec bounds memory extent fuel (start + total left + 4) =
      BoundaryTag.firstFit codec memory extent fuel (start + total left + 4) := by
  induction right generalizing left fuel with
  | nil =>
      obtain ⟨fuel, rfl⟩ : ∃ n, fuel = n + 1 := ⟨fuel - 1, by simp at hfuel; omega⟩
      have hheader : bounds.Inside (header (start + total left + 4)) := by
        rw [hblocks, List.append_nil] at hhigh
        unfold Bounds.Inside header
        omega
      have hend : BoundaryTag.blockSize codec memory (start + total left + 4) = 0 := by
        have hafter := h.after
        rw [hblocks, List.append_nil] at hafter
        rw [BoundaryTag.blockSize, header, Int.add_sub_cancel, hafter,
          size_end (limit_pos h.small)]
      simp [firstFit, BoundaryTag.firstFit, blockSize_eq hheader, blockFlag_eq hheader,
        hend]
  | cons block rest ih =>
      obtain ⟨fuel, rfl⟩ : ∃ n, fuel = n + 1 := ⟨fuel - 1, by omega⟩
      have hloc := Region.located (hblocks ▸ h)
      have hstep : start + (total left : Int) + 4 + block.size =
          start + total (left ++ [block]) + 4 := by
        simp only [total_append, total_cons, total_nil]
        omega
      have hblocks' : blocks = left ++ [block] ++ rest := by simpa using hblocks
      have hlength : rest.length < fuel := by
        simp only [List.length_cons] at hfuel
        omega
      have hrest := ih hblocks' hlength
      obtain ⟨hheader, -⟩ := header_inside hlow hhigh hblocks
      simp only [firstFit, BoundaryTag.firstFit, blockSize_eq hheader,
        blockFlag_eq hheader, Option.bind_eq_bind, Option.bind_some, hloc.size_eq,
        hstep, hrest]

end Regions

end Bounded

end RutgersOS.Memory.BoundaryTag
