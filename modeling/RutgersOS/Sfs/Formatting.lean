import RutgersOS.Sfs.Exhaustion

namespace RutgersOS.Sfs

open RutgersOS.Memory

/-! What `sfs_init` keeps of the calls before it.  It writes the bitmaps from the
shared `buffer`, which it does not clear. -/

/-- The root directory is all that the disk holds.  The fields of an inode end at
byte 62. -/
structure FreshlyFormatted (fs : FileSystem) : Prop where
  inodeStatus : ∀ n, 0 ≤ n → n < fs.info.totalInodes →
    ((fs.checkInodeStatus n).1 = 1 ↔ n = 0)
  dataregionStatus : ∀ m, 0 ≤ m → m < fs.info.dataregionBlocks →
    ((fs.checkDataregionStatus m).1 = 1 ↔ m = 0)
  inodes : ∀ n, 0 < n → n < fs.info.totalInodes → ∀ x, 0 ≤ x → x < 62 →
    (fs.getInode n).1 x = 0
  lookup : ∀ path, Absolute path →
    (fs.findPathBlock path).1 = fs.blockRead fs.info.dataregionBlocksStart
  root : HoldsName (fs.blockRead fs.info.dataregionBlocksStart) 0 [] ∧
    FilepathBlock.inode (fs.blockRead fs.info.dataregionBlocksStart) = 0

def Cleared (buffer : Bytes) : Prop :=
  ∀ x, 0 ≤ x → x < blockSize → buffer x = 0

def bufferBit (buffer : Bytes) (number : Int) : Int :=
  testBit (buffer (statusByte number)) (statusOffset number)

theorem statusByte_range {number : Int} (h : 0 ≤ number) :
    0 ≤ statusByte number ∧ statusByte number < 512 := by
  simp only [statusByte, bitsPerBlock, bitsPerByte, Int.tdiv_eq_ediv_of_nonneg h]
  rw [Int.tdiv_eq_ediv_of_nonneg (by omega)]
  omega

theorem status_address {x : Int} (hlow : 0 ≤ x) (hhigh : x < 512) {offset : Nat}
    (hoffset : offset < 8) {first : Int} (hfirst : first = 0 ∨ first = 4096) :
    statusByte (first + 8 * x + (7 - offset)) = x ∧
      statusOffset (first + 8 * x + (7 - offset)) = offset := by
  have hnonneg : 0 ≤ first + 8 * x + (7 - offset) := by omega
  simp only [statusOffset, statusByte, bitsPerBlock, bitsPerByte, zeroIndexBits,
    Int.tdiv_eq_ediv_of_nonneg hnonneg]
  rw [Int.tdiv_eq_ediv_of_nonneg (by omega)]
  omega

theorem eq_zero_of_testBit {dataBits : UInt8}
    (h : ∀ offset, offset < 8 → testBit dataBits offset = 0) : dataBits = 0 := by
  apply UInt8.toBitVec_inj.mp
  apply BitVec.eq_of_getLsbD_eq
  intro offset hoffset
  have hbit := h offset hoffset
  rw [testBit_eq dataBits hoffset] at hbit
  cases hset : dataBits.toBitVec.getLsbD offset with
  | false => simp
  | true =>
      rw [hset, if_pos rfl] at hbit
      cases hbit

theorem Cleared.bit {buffer : Bytes} (h : Cleared buffer) {number : Int}
    (hnumber : 0 ≤ number) : bufferBit buffer number = 0 := by
  obtain ⟨hlow, hhigh⟩ := statusByte_range hnumber
  rw [bufferBit, h _ hlow hhigh]
  simp [testBit]

/-- The bits of the first block of either bitmap all count an object, and the inode
bitmap has another block. -/
theorem Covered.objects {totalSize : Int} (h : Covered totalSize) :
    4096 ≤ (getMetadataInfo totalSize).dataregionBlocks ∧
      4096 < (getMetadataInfo totalSize).totalInodes := by
  have layout := h.layout
  have hsome := layout.someData
  have hbits := layout.dataBits
  have hnonneg := h.nonneg
  simp only [getMetadataInfo, blockSize, bitsPerBlock, inodesPerBlock, value]
    at hsome hbits ⊢
  have hsize : (3 * totalSize).tdiv 4 = 3 * totalSize / 4 :=
    Int.tdiv_eq_ediv_of_nonneg (by omega)
  have hblocks : (3 * totalSize / 4).tdiv 512 = 3 * totalSize / 4 / 512 :=
    Int.tdiv_eq_ediv_of_nonneg (by omega)
  have hbitmap : (3 * totalSize / 4 / 512).tdiv 4096 =
      3 * totalSize / 4 / 512 / 4096 := Int.tdiv_eq_ediv_of_nonneg (by omega)
  have hmeta : (totalSize - 3 * totalSize / 4).tdiv 512 =
      (totalSize - 3 * totalSize / 4) / 512 :=
    Int.tdiv_eq_ediv_of_nonneg (by omega)
  simp only [hsize, hblocks, hbitmap, hmeta] at hsome hbits ⊢
  have hmany : 4096 ≤ 3 * totalSize / 4 / 512 := by omega
  refine ⟨hmany, ?_⟩
  have hlarge : 2796203 ≤ totalSize := by omega
  generalize hn : (totalSize - 3 * totalSize / 4) / 512 -
    3 * totalSize / 4 / 512 / 4096 - 1 = n
  have hrest : 1363 ≤ n := by omega
  rw [Int.tdiv_eq_ediv_of_nonneg (by omega : 0 ≤ n)]
  split
  · omega
  · omega

section Views

variable (fs : FileSystem) {totalSize : Int} (layout : Layout (getMetadataInfo totalSize))
  (staleNode staleSblock staleFblock : Bytes)

include layout

theorem sfsInit_inodeBit {n : Int} (hlow : 0 ≤ n)
    (hhigh : n < 4096 * (getMetadataInfo totalSize).inodeBitmapBlocks) :
    (fs.sfsInit totalSize staleNode staleSblock staleFblock).inodeBit n =
      if n = 0 then 1 else bufferBit fs.buffer n := by
  have hinfo := formatted_info fs totalSize staleNode staleSblock
  have hchange := sfsInit_changes fs totalSize staleNode staleSblock layout staleFblock
  have hdata := layout.dataBits
  have hfirst := layout.someData
  have hblocks := layout.dataStart
  have hinodes := layout.inodeStart
  have hsome := layout.someInode
  rw [hchange.inodeBit n hlow (by rwa [hinfo])]
  congr 1
  rw [FileSystem.inodeBit, statusBit, hinfo]
  have hlayout : Layout (formatted fs totalSize staleNode staleSblock).info := hinfo ▸ layout
  obtain ⟨hblock, hblock'⟩ := statusBlock_inode hlayout hlow (by rwa [hinfo])
  rw [hinfo] at hblock hblock'
  rw [formatted_disk fs totalSize staleNode staleSblock layout (by omega) (by omega),
    if_pos hblock']
  rfl

theorem sfsInit_dataBit {m : Int} (hlow : 0 ≤ m)
    (hhigh : m < 4096 * (getMetadataInfo totalSize).dataregionBitmapBlocks) :
    (fs.sfsInit totalSize staleNode staleSblock staleFblock).dataBit m =
      if m = 0 then 1 else bufferBit fs.buffer m := by
  have hinfo := formatted_info fs totalSize staleNode staleSblock
  have hchange := sfsInit_changes fs totalSize staleNode staleSblock layout staleFblock
  have hbits := layout.inodeBits
  have htotal := layout.inodes
  have hblocks := layout.dataStart
  have hinodes := layout.inodeStart
  have hsome := layout.someInode
  rw [hchange.dataBit m hlow (by rwa [hinfo])]
  congr 1
  rw [FileSystem.dataBit, statusBit, hinfo]
  have hlayout : Layout (formatted fs totalSize staleNode staleSblock).info := hinfo ▸ layout
  obtain ⟨hblock, hblock'⟩ := statusBlock_data hlayout hlow (by rwa [hinfo])
  rw [hinfo] at hblock hblock'
  rw [formatted_disk fs totalSize staleNode staleSblock layout hblock (by omega),
    if_pos (by omega)]
  rfl

theorem formatted_inode {n : Int} (hlow : 0 ≤ n)
    (hhigh : n < (getMetadataInfo totalSize).totalInodes) {x : Int} (hx : 0 ≤ x)
    (hx' : x < 62) :
    inodeAt (formatted fs totalSize staleNode staleSblock).disk
      (getMetadataInfo totalSize).inodeBlocksStart n x = 0 := by
  have hinfo := formatted_info fs totalSize staleNode staleSblock
  have hbits := layout.inodeBits
  have hdata := layout.dataBits
  have hfirst := layout.someData
  have hstart := layout.inodeStart
  have hinodes := layout.inodes
  have hsome := layout.someInode
  have hlayout : Layout (formatted fs totalSize staleNode staleSblock).info :=
    hinfo ▸ layout
  obtain ⟨hblock, hblock'⟩ := inodeBlock_range hlayout hlow (by rwa [hinfo])
  rw [hinfo] at hblock hblock'
  rw [inodeAt, formatted_disk fs totalSize staleNode staleSblock layout (by omega) hblock',
    if_neg (by omega)]
  exact inodeList_clear staleNode n hx hx'

theorem sfsInit_inode {n : Int} (hlow : 0 < n)
    (hhigh : n < (getMetadataInfo totalSize).totalInodes) {x : Int} (hx : 0 ≤ x)
    (hx' : x < 62) :
    inodeAt (fs.sfsInit totalSize staleNode staleSblock staleFblock).disk
      (getMetadataInfo totalSize).inodeBlocksStart n x = 0 := by
  have hinfo := formatted_info fs totalSize staleNode staleSblock
  have hzero := formatted_inode fs layout staleNode staleSblock (Int.le_of_lt hlow) hhigh
    hx hx'
  obtain ⟨node, hsfsInit⟩ : ∃ node, fs.sfsInit totalSize staleNode staleSblock staleFblock =
      (((((formatted fs totalSize staleNode staleSblock).getInode 0).2.setInode 0
        node).setInodeStatus 0 1).setDataregionStatus 0 1).blockWrite
          (getMetadataInfo totalSize).dataregionBlocksStart
            (FilepathBlock.make staleFblock [] 0) := ⟨_, rfl⟩
  rw [hsfsInit]
  generalize formatted fs totalSize staleNode staleSblock = base at hinfo hzero
  rw [← hinfo] at layout hhigh hzero ⊢
  have hinodes := layout.inodes
  have hsome := layout.someInode
  have hfirst := layout.someData
  have hbits := layout.inodeBits
  have hdata := layout.dataBits
  have hstart := layout.inodeStart
  obtain ⟨hblock, hblock'⟩ := inodeBlock_range layout (Int.le_of_lt hlow) hhigh
  have hstatus := statusBlock_inode layout (Int.le_refl 0) (by omega)
  have hstatus' := statusBlock_data layout (Int.le_refl 0) (by omega)
  have hsame := SameDisk.getInode base 0
  generalize (base.getInode 0).2 = fs1 at hsame ⊢
  rw [← hsame.info] at hblock hblock' hstatus hstatus' hinodes ⊢
  rw [← hsame.info] at hstart
  have hkept : (((((fs1.setInode 0 node).setInodeStatus 0 1).setDataregionStatus 0
      1).blockWrite fs1.info.dataregionBlocksStart
        (FilepathBlock.make staleFblock [] 0)).disk
          (inodeBlock fs1.info.inodeBlocksStart n)) =
      (fs1.setInode 0 node).disk (inodeBlock fs1.info.inodeBlocksStart n) := by
    refine (Function.update_of_ne (by omega) _ _).trans ?_
    refine (setStatus_outside MetadataInfo.dataregionBitmapStart _ 0 1 ?_).trans ?_
    · change _ ≠ statusBlock fs1.info.dataregionBitmapStart 0
      omega
    · refine setStatus_outside MetadataInfo.inodeBitmapStart _ 0 1 ?_
      change _ ≠ statusBlock fs1.info.inodeBitmapStart 0
      omega
  have htable := inodeAt_setInode fs1 (Int.le_refl 0) (Int.le_of_lt hlow) node hx
    (Int.lt_trans hx' (by decide))
  rw [inodeAt, hkept]
  rw [if_neg (by omega), hsame.disk, hsame.info, hzero] at htable
  rw [hsame.info]
  exact htable

theorem sfsInit_root :
    (fs.sfsInit totalSize staleNode staleSblock staleFblock).blockRead
      (getMetadataInfo totalSize).dataregionBlocksStart =
        FilepathBlock.make staleFblock [] 0 := by
  have hinfo := sfsInit_info fs totalSize staleNode staleSblock staleFblock
  have hchange := sfsInit_changes fs totalSize staleNode staleSblock layout staleFblock
  have hblock := hchange.entryBlock 0 (Int.le_refl 0)
  rw [FileSystem.entryBlock, hinfo, Int.add_zero, if_pos rfl] at hblock
  exact hblock

theorem sfsInit_ptr {j : Nat} (hj : j < 12) :
    (fs.sfsInit totalSize staleNode staleSblock staleFblock).ptr 0 j = 0 := by
  have hinfo := formatted_info fs totalSize staleNode staleSblock
  have hchange := sfsInit_changes fs totalSize staleNode staleSblock layout staleFblock
  have hinodes := layout.inodes
  have hsome := layout.someInode
  rw [hchange.ptr 0 j (Int.le_refl 0) (by rw [hinfo]; omega) hj, FileSystem.ptr, hinfo]
  exact directPtr_zero hj fun x hx hx' =>
    formatted_inode fs layout staleNode staleSblock (Int.le_refl 0) (by omega) hx hx'

theorem sfsInit_lookup (path : List UInt8) :
    ((fs.sfsInit totalSize staleNode staleSblock staleFblock).findPathBlock path).1 =
      FilepathBlock.make staleFblock [] 0 := by
  have hroot := sfsInit_root fs layout staleNode staleSblock staleFblock
  have hptr : ∀ j, j < 12 → _ := fun j => sfsInit_ptr fs layout staleNode staleSblock staleFblock
  have hinfo := sfsInit_info fs totalSize staleNode staleSblock staleFblock
  have hempty : ([] : List UInt8).length ≤ 507 := Nat.zero_le 507
  have hinode := (make_holds staleFblock hempty (Int.le_refl 0) (by decide)).2
  generalize fs.sfsInit totalSize staleNode staleSblock staleFblock = next at *
  rw [FileSystem.findPathBlock, hinfo, hroot]
  cases parsePath path with
  | nil => rfl
  | cons searchFolder fldrs =>
      rw [FileSystem.searchFolders, hinode]
      have hnone : (next.getInode 0).2.searchPtrs (next.getInode 0).1 searchFolder
          (List.range 12) = (12, none) := by
        refine searchPtrs_none fun j hj hmatch => hmatch.1 ?_
        exact hptr j (List.mem_range.mp hj)
      simp only [hnone, if_true]

end Views

theorem bufferBit_cases (buffer : Bytes) {number : Int} (h : 0 ≤ number) :
    bufferBit buffer number = 0 ∨ bufferBit buffer number = 1 :=
  testBit_cases _ (statusOffset_lt h)

theorem Cleared.of_bits {buffer : Bytes}
    (h : ∀ number, 0 < number → number ≤ 4096 → bufferBit buffer number = 0) :
    Cleared buffer := by
  intro x hlow hhigh
  rw [blockSize] at hhigh
  refine eq_zero_of_testBit fun offset hoffset => ?_
  rcases Classical.em (8 * x + (7 - offset) = 0) with hzero | hne
  · obtain ⟨hbyte, hbit⟩ := status_address hlow hhigh hoffset (Or.inr rfl)
    have hnext := h (4096 + 8 * x + (7 - offset)) (by omega) (by omega)
    rwa [bufferBit, hbyte, hbit] at hnext
  · obtain ⟨hbyte, hbit⟩ := status_address hlow hhigh hoffset (Or.inl rfl)
    have hfirst := h (0 + 8 * x + (7 - offset)) (by omega) (by omega)
    rwa [bufferBit, hbyte, hbit] at hfirst

/-- Formatting depends on the calls before through the shared buffer alone: the disk is
the one with nothing but a root exactly where that buffer is cleared. -/
theorem sfsInit_fresh_iff (fs : FileSystem) {totalSize : Int}
    (hcovered : Covered totalSize) (staleNode staleSblock staleFblock : Bytes) :
    FreshlyFormatted (fs.sfsInit totalSize staleNode staleSblock staleFblock) ↔
      Cleared fs.buffer := by
  have layout := hcovered.layout
  obtain ⟨hmany, hmany'⟩ := hcovered.objects
  have hinfo := sfsInit_info fs totalSize staleNode staleSblock staleFblock
  have hinodeBit : ∀ n, _ → _ → _ := fun n =>
    sfsInit_inodeBit fs layout staleNode staleSblock staleFblock (n := n)
  have hdataBit : ∀ m, _ → _ → _ := fun m =>
    sfsInit_dataBit fs layout staleNode staleSblock staleFblock (m := m)
  have hinodeBits := layout.inodeBits
  have hdataBits := layout.dataBits
  constructor
  · intro h
    refine Cleared.of_bits fun number hlow hhigh => ?_
    rcases Int.lt_or_le number 4096 with hfirst | hlast
    · have hstatus := h.dataregionStatus number (Int.le_of_lt hlow)
        (by rw [hinfo]; omega)
      have hbit := hdataBit number (Int.le_of_lt hlow) (by omega)
      rw [if_neg (by omega)] at hbit
      refine (bufferBit_cases fs.buffer (Int.le_of_lt hlow)).resolve_right fun hset => ?_
      have hroot := hstatus.mp (hbit.trans hset)
      omega
    · have hstatus := h.inodeStatus number (Int.le_of_lt hlow) (by rw [hinfo]; omega)
      have hbit := hinodeBit number (Int.le_of_lt hlow) (by omega)
      rw [if_neg (by omega)] at hbit
      refine (bufferBit_cases fs.buffer (Int.le_of_lt hlow)).resolve_right fun hset => ?_
      have hroot := hstatus.mp (hbit.trans hset)
      omega
  · intro hclear
    have hbits : ∀ {n : Int}, 0 ≤ n → ((if n = 0 then 1 else bufferBit fs.buffer n) = 1 ↔
        n = 0) := by
      intro n hlow
      rw [hclear.bit hlow]
      split
      · next hzero => exact iff_of_true rfl hzero
      · next hne => exact iff_of_false Int.zero_ne_one hne
    have hempty : ([] : List UInt8).length ≤ 507 := Nat.zero_le 507
    have hroot := sfsInit_root fs layout staleNode staleSblock staleFblock
    rw [← hinfo] at hroot
    constructor
    case inodeStatus =>
      intro n hlow hhigh
      rw [hinfo] at hhigh
      rw [← hbits hlow, ← hinodeBit n hlow (by omega)]
      rfl
    case dataregionStatus =>
      intro m hlow hhigh
      rw [hinfo] at hhigh
      rw [← hbits hlow, ← hdataBit m hlow (by omega)]
      rfl
    case inodes =>
      intro n hlow hhigh x hx hx'
      rw [hinfo] at hhigh
      have hzero := sfsInit_inode fs layout staleNode staleSblock staleFblock hlow hhigh hx hx'
      rw [← hinfo] at hzero
      exact hzero
    case lookup =>
      intro path _
      rw [hroot]
      exact sfsInit_lookup fs layout staleNode staleSblock staleFblock path
    case root =>
      rw [hroot]
      exact make_holds staleFblock hempty (Int.le_refl 0) (by decide)

/-- The first format of a process, over a disk in use. -/
theorem sfsInit_fresh_iff_first :
    FreshlyFormatted (FileSystem.sfsInit ⟨fun _ _ => 255, fun _ => 0, fun _ => 255,
      getMetadataInfo 0⟩ 8388608 (fun _ => 7) (fun _ => 7) (fun _ => 7)) :=
  (sfsInit_fresh_iff ⟨fun _ _ => 255, fun _ => 0, fun _ => 255, getMetadataInfo 0⟩
    blankDisk_covered (fun _ => 7) (fun _ => 7) (fun _ => 7)).mpr fun _ _ _ => rfl

theorem setStatus_buffer (start : MetadataInfo → Int) (fs : FileSystem) {number : Int}
    (h : 0 ≤ number) : bufferBit (fs.setStatus start number 1).buffer number = 1 := by
  have hbuffer : (fs.setStatus start number 1).buffer =
      Function.update (fs.disk (statusBlock (start fs.info) number)) (statusByte number)
        (assignBit (fs.disk (statusBlock (start fs.info) number) (statusByte number)) 1
          (statusOffset number)) := rfl
  rw [bufferBit, hbuffer, Function.update_self, testBit_assignBit _ (Or.inr rfl)
    (statusOffset_lt h) (statusOffset_lt h), if_pos rfl]

theorem sfsInit_buffer (fs : FileSystem) (totalSize : Int)
    (staleNode staleSblock staleFblock : Bytes) :
    bufferBit (fs.sfsInit totalSize staleNode staleSblock staleFblock).buffer 0 = 1 := by
  obtain ⟨base, b, block, hsfsInit⟩ : ∃ base b block,
      fs.sfsInit totalSize staleNode staleSblock staleFblock =
        (FileSystem.setDataregionStatus base 0 1).blockWrite b block := ⟨_, _, _, rfl⟩
  rw [hsfsInit]
  exact setStatus_buffer _ base (Int.le_refl 0)

/-- A second format in the same process, of any disk, takes inode 4096 for allocated:
its bit is at the place of the bit of the root. -/
theorem sfsInit_again (fs : FileSystem) (firstSize : Int) {totalSize : Int}
    (hcovered : Covered totalSize) (node sblock fblock staleNode staleSblock staleFblock : Bytes) :
    (((fs.sfsInit firstSize node sblock fblock).sfsInit totalSize staleNode staleSblock
      staleFblock).checkInodeStatus 4096).1 = 1 := by
  have hbuffer := sfsInit_buffer fs firstSize node sblock fblock
  have hmany := hcovered.objects.2
  have hbits := hcovered.layout.inodeBits
  have hbit := sfsInit_inodeBit (fs.sfsInit firstSize node sblock fblock) hcovered.layout
    staleNode staleSblock staleFblock (n := 4096) (by decide) (by omega)
  exact hbit.trans ((if_neg (by decide)).trans hbuffer)

/-- Eight megabytes, formatted twice. -/
theorem sfsInit_again_leaks :
    ((blankDisk.sfsInit 8388608 (fun _ => 7) (fun _ => 7) (fun _ => 7)).checkInodeStatus
      4096).1 = 1 ∧
      ¬ FreshlyFormatted (blankDisk.sfsInit 8388608 (fun _ => 7) (fun _ => 7) (fun _ => 7)) := by
  have hset := sfsInit_again ⟨fun _ _ => 255, fun _ => 0, fun _ => 0, getMetadataInfo 0⟩
    8388608 blankDisk_covered (fun _ => 7) (fun _ => 7) (fun _ => 7) (fun _ => 7) (fun _ => 7)
    (fun _ => 7)
  have hinfo := sfsInit_info blankDisk 8388608 (fun _ => 7) (fun _ => 7) (fun _ => 7)
  refine ⟨hset, fun h => ?_⟩
  have hroot := (h.inodeStatus 4096 (by decide) (by rw [hinfo]; decide)).mp hset
  cases hroot

end RutgersOS.Sfs
