import RutgersOS.Sfs.Create

namespace RutgersOS.Sfs

open RutgersOS.Memory

/-! The regions of the disk follow each other, so an update of one leaves what
the others stand for. -/

/-- A disk that an `int` measures, whose bitmaps have a bit for each object and
whose file holds the block of inode 0. -/
structure Covered (totalSize : Int) : Prop where
  nonneg : 0 ≤ totalSize
  int : totalSize < 2 ^ 31
  dataBits : (getMetadataInfo totalSize).dataregionBlocks ≤
    bitsPerBlock * (getMetadataInfo totalSize).dataregionBitmapBlocks
  inodeBits : (getMetadataInfo totalSize).totalInodes ≤
    bitsPerBlock * (getMetadataInfo totalSize).inodeBitmapBlocks
  fullRead : ((getMetadataInfo totalSize).inodeBlocksStart + 1) * blockSize ≤
    totalSize

structure Layout (info : MetadataInfo) : Prop where
  dataBitmapStart : info.dataregionBitmapStart = 1
  inodeBitmapStart : info.inodeBitmapStart = 1 + info.dataregionBitmapBlocks
  inodeStart : info.inodeBlocksStart =
    1 + info.dataregionBitmapBlocks + info.inodeBitmapBlocks
  dataStart : info.dataregionBlocksStart =
    1 + info.dataregionBitmapBlocks + info.inodeBitmapBlocks + info.inodeBlocks
  inodes : info.totalInodes = info.inodeBlocks * 8
  dataBits : info.dataregionBlocks ≤ 4096 * info.dataregionBitmapBlocks
  inodeBits : info.totalInodes ≤ 4096 * info.inodeBitmapBlocks
  someInode : 1 ≤ info.inodeBlocks
  someData : 1 ≤ info.dataregionBlocks
  inodes_lt : info.totalInodes < 2 ^ 31
  data_lt : info.dataregionBlocksStart + info.dataregionBlocks < 2 ^ 31

theorem Covered.layout {totalSize : Int} (h : Covered totalSize) :
    Layout (getMetadataInfo totalSize) := by
  obtain ⟨hnonneg, hint, hdata, hinode, hfull⟩ := h
  simp only [getMetadataInfo, blockSize, bitsPerBlock, inodesPerBlock, value]
    at hdata hinode hfull ⊢
  have hsize : (3 * totalSize).tdiv 4 = 3 * totalSize / 4 :=
    Int.tdiv_eq_ediv_of_nonneg (by omega)
  have hblocks : (3 * totalSize / 4).tdiv 512 = 3 * totalSize / 4 / 512 :=
    Int.tdiv_eq_ediv_of_nonneg (by omega)
  have hbitmap : (3 * totalSize / 4 / 512).tdiv 4096 =
      3 * totalSize / 4 / 512 / 4096 := Int.tdiv_eq_ediv_of_nonneg (by omega)
  have hmeta : (totalSize - 3 * totalSize / 4).tdiv 512 =
      (totalSize - 3 * totalSize / 4) / 512 :=
    Int.tdiv_eq_ediv_of_nonneg (by omega)
  simp only [hsize, hblocks, hbitmap, hmeta] at hdata hinode hfull ⊢
  generalize hn : (totalSize - 3 * totalSize / 4) / 512 -
    3 * totalSize / 4 / 512 / 4096 - 1 = n at hdata hinode hfull ⊢
  have hpositive : 0 ≤ n := by
    rcases Int.lt_or_le n 0 with hneg | hpos
    · -- no bitmap block at all, so the file would be shorter than two blocks
      have hfew : 3 * totalSize / 4 / 512 / 4096 = 0 := by omega
      have hempty : 3 * totalSize / 4 / 512 = 0 := by omega
      have hquotient : n.tdiv 513 = 0 := by
        have hminus : n = -1 := by omega
        rw [hminus]
        rfl
      rw [hquotient] at hfull
      simp at hfull
      omega
    · exact hpos
  have hquotient : n.tdiv 513 = n / 513 := Int.tdiv_eq_ediv_of_nonneg hpositive
  have hremainder : (n / 513).tmod 513 = n / 513 % 513 :=
    Int.tmod_eq_emod_of_nonneg (by omega)
  simp only [hquotient, hremainder] at hinode hfull ⊢
  generalize hb : (if n / 513 % 513 ≠ 0 then n / 513 + 1 else n / 513) = b
    at hinode hfull ⊢
  have hbcases : b = n / 513 + 1 ∨ b = n / 513 ∧ n / 513 % 513 = 0 := by
    split at hb
    · exact Or.inl hb.symm
    · next hzero => exact Or.inr ⟨hb.symm, by omega⟩
  have htwice : 0 ≤ n / 513 / 513 := by omega
  constructor
  all_goals dsimp only
  case someInode =>
    -- one metadata block needs more than an empty inode table
    rcases Int.lt_or_le 1 ((totalSize - 3 * totalSize / 4) / 512) with hmany | hone
    · omega
    · omega
  all_goals omega

namespace FileSystem

def inodeBit (fs : FileSystem) (n : Int) : Int :=
  statusBit fs.disk fs.info.inodeBitmapStart n

def dataBit (fs : FileSystem) (n : Int) : Int :=
  statusBit fs.disk fs.info.dataregionBitmapStart n

def ptr (fs : FileSystem) (n : Int) (j : Nat) : Int :=
  Inode.directPtr (inodeAt fs.disk fs.info.inodeBlocksStart n) j

def entryBlock (fs : FileSystem) (b : Int) : Bytes :=
  fs.disk (fs.info.dataregionBlocksStart + b)

end FileSystem

section Regions

variable {fs next : FileSystem} (layout : Layout fs.info)
  (hinfo : next.info = fs.info)

include layout

theorem statusBlock_inode {n : Int} (hlow : 0 ≤ n)
    (hhigh : n < 4096 * fs.info.inodeBitmapBlocks) :
    1 + fs.info.dataregionBitmapBlocks ≤
        statusBlock fs.info.inodeBitmapStart n ∧
      statusBlock fs.info.inodeBitmapStart n < fs.info.inodeBlocksStart := by
  rw [statusBlock, bitsPerBlock, Int.tdiv_eq_ediv_of_nonneg hlow,
    layout.inodeBitmapStart, layout.inodeStart]
  omega

theorem statusBlock_data {n : Int} (hlow : 0 ≤ n)
    (hhigh : n < 4096 * fs.info.dataregionBitmapBlocks) :
    1 ≤ statusBlock fs.info.dataregionBitmapStart n ∧
      statusBlock fs.info.dataregionBitmapStart n <
        1 + fs.info.dataregionBitmapBlocks := by
  rw [statusBlock, bitsPerBlock, Int.tdiv_eq_ediv_of_nonneg hlow,
    layout.dataBitmapStart]
  omega

theorem inodeBlock_range {n : Int} (hlow : 0 ≤ n)
    (hhigh : n < fs.info.totalInodes) :
    fs.info.inodeBlocksStart ≤ inodeBlock fs.info.inodeBlocksStart n ∧
      inodeBlock fs.info.inodeBlocksStart n <
        fs.info.dataregionBlocksStart := by
  have hinodes := layout.inodes
  have hdata := layout.dataStart
  have hstart := layout.inodeStart
  rw [inodeBlock, inodesPerBlock, Int.tdiv_eq_ediv_of_nonneg hlow]
  omega

include hinfo

theorem inodeBit_same
    (hdisk : ∀ b, 1 + fs.info.dataregionBitmapBlocks ≤ b →
      b < fs.info.inodeBlocksStart → next.disk b = fs.disk b) {n : Int}
    (hlow : 0 ≤ n) (hhigh : n < 4096 * fs.info.inodeBitmapBlocks) :
    next.inodeBit n = fs.inodeBit n := by
  have hblock := statusBlock_inode layout hlow hhigh
  rw [FileSystem.inodeBit, FileSystem.inodeBit, hinfo, statusBit, statusBit,
    hdisk _ hblock.1 hblock.2]

theorem dataBit_same
    (hdisk : ∀ b, 1 ≤ b → b < 1 + fs.info.dataregionBitmapBlocks →
      next.disk b = fs.disk b) {n : Int} (hlow : 0 ≤ n)
    (hhigh : n < 4096 * fs.info.dataregionBitmapBlocks) :
    next.dataBit n = fs.dataBit n := by
  have hblock := statusBlock_data layout hlow hhigh
  rw [FileSystem.dataBit, FileSystem.dataBit, hinfo, statusBit, statusBit,
    hdisk _ hblock.1 hblock.2]

theorem ptr_same
    (hdisk : ∀ b, fs.info.inodeBlocksStart ≤ b →
      b < fs.info.dataregionBlocksStart → next.disk b = fs.disk b) {n : Int}
    (hlow : 0 ≤ n) (hhigh : n < fs.info.totalInodes) (j : Nat) :
    next.ptr n j = fs.ptr n j := by
  have hblock := inodeBlock_range layout hlow hhigh
  have hinode : inodeAt next.disk next.info.inodeBlocksStart n =
      inodeAt fs.disk fs.info.inodeBlocksStart n := by
    rw [hinfo]
    funext x
    rw [inodeAt, inodeAt, hdisk _ hblock.1 hblock.2]
  rw [FileSystem.ptr, FileSystem.ptr, hinode]

omit layout in
theorem entryBlock_same
    (hdisk : ∀ b, fs.info.dataregionBlocksStart ≤ b →
      next.disk b = fs.disk b) {b : Int} (hlow : 0 ≤ b) :
    next.entryBlock b = fs.entryBlock b := by
  rw [FileSystem.entryBlock, FileSystem.entryBlock, hinfo,
    hdisk _ (by omega)]

end Regions

/-- How the views of `next` differ from those of `fs`. -/
structure Changes (fs next : FileSystem) (inodeBit dataBit : Int → Int → Int)
    (ptr : Int → Nat → Int → Int) (entryBlock : Int → Bytes → Bytes) :
    Prop where
  info : next.info = fs.info
  inodeBit : ∀ n, 0 ≤ n → n < 4096 * fs.info.inodeBitmapBlocks →
    next.inodeBit n = inodeBit n (fs.inodeBit n)
  dataBit : ∀ n, 0 ≤ n → n < 4096 * fs.info.dataregionBitmapBlocks →
    next.dataBit n = dataBit n (fs.dataBit n)
  ptr : ∀ n j, 0 ≤ n → n < fs.info.totalInodes → j < 12 →
    next.ptr n j = ptr n j (fs.ptr n j)
  entryBlock : ∀ b, 0 ≤ b →
    next.entryBlock b = entryBlock b (fs.entryBlock b)

namespace Changes

theorem layout {fs next : FileSystem} {inodeBit dataBit : Int → Int → Int}
    {ptr : Int → Nat → Int → Int} {entryBlock : Int → Bytes → Bytes}
    (h : Changes fs next inodeBit dataBit ptr entryBlock)
    (layout : Layout fs.info) : Layout next.info := by
  rw [h.info]
  exact layout

theorem trans {first second third : FileSystem}
    {inodeBit inodeBit' dataBit dataBit' : Int → Int → Int}
    {ptr ptr' : Int → Nat → Int → Int} {entryBlock entryBlock' : Int → Bytes → Bytes}
    (h : Changes first second inodeBit dataBit ptr entryBlock)
    (h' : Changes second third inodeBit' dataBit' ptr' entryBlock') :
    Changes first third (fun n bit => inodeBit' n (inodeBit n bit))
      (fun n bit => dataBit' n (dataBit n bit))
      (fun n j old => ptr' n j (ptr n j old))
      (fun b block => entryBlock' b (entryBlock b block)) where
  info := h'.info.trans h.info
  inodeBit n hlow hhigh := by
    rw [h'.inodeBit n hlow (by rwa [h.info]), h.inodeBit n hlow hhigh]
  dataBit n hlow hhigh := by
    rw [h'.dataBit n hlow (by rwa [h.info]), h.dataBit n hlow hhigh]
  ptr n j hlow hhigh hj := by
    rw [h'.ptr n j hlow (by rwa [h.info]) hj, h.ptr n j hlow hhigh hj]
  entryBlock b hlow := by
    rw [h'.entryBlock b hlow, h.entryBlock b hlow]

theorem sameDisk {fs next : FileSystem} (h : SameDisk fs next) :
    Changes fs next (fun _ bit => bit) (fun _ bit => bit)
      (fun _ _ old => old) (fun _ block => block) where
  info := h.info
  inodeBit n _ _ := by
    rw [FileSystem.inodeBit, FileSystem.inodeBit, h.disk, h.info]
  dataBit n _ _ := by
    rw [FileSystem.dataBit, FileSystem.dataBit, h.disk, h.info]
  ptr n j _ _ _ := by
    rw [FileSystem.ptr, FileSystem.ptr, h.disk, h.info]
  entryBlock b _ := by
    rw [FileSystem.entryBlock, FileSystem.entryBlock, h.disk, h.info]

section Updates

variable {fs : FileSystem} (layout : Layout fs.info)

include layout

theorem setInodeStatus {i : Int} (hlow : 0 ≤ i)
    (hhigh : i < fs.info.totalInodes) {status : Int}
    (hstatus : status = 0 ∨ status = 1) :
    Changes fs (fs.setInodeStatus i status)
      (fun n bit => if n = i then status else bit) (fun _ bit => bit)
      (fun _ _ old => old) (fun _ block => block) := by
  have hblock := statusBlock_inode layout hlow
    (Int.lt_of_lt_of_le hhigh layout.inodeBits)
  have hinode := layout.inodeStart
  have hdata := layout.dataStart
  have hsome := layout.someInode
  have hinfo : (fs.setInodeStatus i status).info = fs.info := rfl
  have houtside : ∀ b, b ≠ statusBlock fs.info.inodeBitmapStart i →
      (fs.setInodeStatus i status).disk b = fs.disk b := fun b hb =>
    setStatus_outside _ _ _ _ hb
  exact
    { info := hinfo
      inodeBit := fun n hn _ => statusBit_setStatus _ fs hlow hn hstatus
      dataBit := fun n hn hn' => dataBit_same layout hinfo
        (fun b _ hb => houtside b (by omega)) hn hn'
      ptr := fun n j hn hn' _ => ptr_same layout hinfo
        (fun b hb _ => houtside b (by omega)) hn hn' j
      entryBlock := fun b hb => entryBlock_same hinfo
        (fun b hb => houtside b (by omega)) hb }

theorem setDataregionStatus {d : Int} (hlow : 0 ≤ d)
    (hhigh : d < fs.info.dataregionBlocks) {status : Int}
    (hstatus : status = 0 ∨ status = 1) :
    Changes fs (fs.setDataregionStatus d status) (fun _ bit => bit)
      (fun n bit => if n = d then status else bit) (fun _ _ old => old)
      (fun _ block => block) := by
  have hblock := statusBlock_data layout hlow
    (Int.lt_of_lt_of_le hhigh layout.dataBits)
  have hinode := layout.inodeStart
  have hdata := layout.dataStart
  have hsome := layout.someInode
  have hinodes := layout.inodes
  have hbits := layout.inodeBits
  have hinfo : (fs.setDataregionStatus d status).info = fs.info := rfl
  have houtside : ∀ b, b ≠ statusBlock fs.info.dataregionBitmapStart d →
      (fs.setDataregionStatus d status).disk b = fs.disk b := fun b hb =>
    setStatus_outside _ _ _ _ hb
  exact
    { info := hinfo
      inodeBit := fun n hn hn' => inodeBit_same layout hinfo
        (fun b hb _ => houtside b (by omega)) hn hn'
      dataBit := fun n hn _ => statusBit_setStatus _ fs hlow hn hstatus
      ptr := fun n j hn hn' _ => ptr_same layout hinfo
        (fun b hb _ => houtside b (by omega)) hn hn' j
      entryBlock := fun b hb => entryBlock_same hinfo
        (fun b hb => houtside b (by omega)) hb }

theorem setInode {p : Int} (hlow : 0 ≤ p) (hhigh : p < fs.info.totalInodes)
    (node : Bytes) :
    Changes fs (fs.setInode p node) (fun _ bit => bit) (fun _ bit => bit)
      (fun n j old => if n = p then Inode.directPtr node j else old)
      (fun _ block => block) := by
  have hblock := inodeBlock_range layout hlow hhigh
  have hinode := layout.inodeStart
  have hinodes := layout.inodes
  have hbits := layout.inodeBits
  have hsome := layout.someInode
  have hinfo : (fs.setInode p node).info = fs.info := rfl
  have houtside : ∀ b, b ≠ inodeBlock fs.info.inodeBlocksStart p →
      (fs.setInode p node).disk b = fs.disk b := fun b hb =>
    setInode_outside _ _ _ hb
  refine
    { info := hinfo
      inodeBit := fun n hn hn' => inodeBit_same layout hinfo
        (fun b _ hb => houtside b (by omega)) hn hn'
      dataBit := fun n hn hn' => dataBit_same layout hinfo
        (fun b _ hb => houtside b (by omega)) hn hn'
      ptr := ?_
      entryBlock := fun b hb => entryBlock_same hinfo
        (fun b hb => houtside b (by omega)) hb }
  intro n j hn _ hj
  have hwords := inodeAt_setInode_load fs hlow hn node (k := Inode.direct j)
    (by simp only [Inode.direct]; omega) (by simp only [Inode.direct]; omega)
  rw [FileSystem.ptr, Inode.directPtr]
  change (Bytes.load (inodeAt _ fs.info.inodeBlocksStart n) _).toInt = _
  rw [hwords]
  split
  · rfl
  · rfl

theorem writeEntry {d : Int} (hlow : 0 ≤ d) (block : Bytes) :
    Changes fs (fs.blockWrite (fs.info.dataregionBlocksStart + d) block)
      (fun _ bit => bit) (fun _ bit => bit) (fun _ _ old => old)
      (fun b old => if b = d then block else old) := by
  have hinode := layout.inodeStart
  have hdata := layout.dataStart
  have hinodes := layout.inodes
  have hbits := layout.inodeBits
  have hsome := layout.someInode
  have hinfo : (fs.blockWrite (fs.info.dataregionBlocksStart + d) block).info = fs.info := rfl
  have houtside : ∀ b, b ≠ fs.info.dataregionBlocksStart + d →
      (fs.blockWrite (fs.info.dataregionBlocksStart + d) block).disk b =
        fs.disk b := fun b hb => Function.update_of_ne hb _ _
  refine
    { info := hinfo
      inodeBit := fun n hn hn' => inodeBit_same layout hinfo
        (fun b _ hb => houtside b (by omega)) hn hn'
      dataBit := fun n hn hn' => dataBit_same layout hinfo
        (fun b _ hb => houtside b (by omega)) hn hn'
      ptr := fun n j hn hn' _ => ptr_same layout hinfo
        (fun b _ hb => houtside b (by omega)) hn hn' j
      entryBlock := ?_ }
  intro b _
  rw [FileSystem.entryBlock, hinfo]
  split
  · next heq =>
      rw [heq]
      exact Function.update_self _ _ _
  · exact houtside _ (by omega)

end Updates

end Changes

end RutgersOS.Sfs
