import Mathlib.Algebra.Group.Int.Defs
import RutgersOS.Memory.Extents
import RutgersOS.Sfs.Disk

namespace RutgersOS.Sfs

open RutgersOS.Memory

namespace MetadataInfo

def superblock : Extent := ⟨0, 1⟩

def dataregionBitmap (info : MetadataInfo) : Extent :=
  ⟨info.dataregionBitmapStart, info.dataregionBitmapBlocks⟩

def inodeBitmap (info : MetadataInfo) : Extent :=
  ⟨info.inodeBitmapStart, info.inodeBitmapBlocks⟩

def inodeTable (info : MetadataInfo) : Extent :=
  ⟨info.inodeBlocksStart, info.inodeBlocks⟩

def dataregion (info : MetadataInfo) : Extent :=
  ⟨info.dataregionBlocksStart, info.dataregionBlocks⟩

def regions (info : MetadataInfo) : List Extent :=
  [superblock, info.dataregionBitmap, info.inodeBitmap, info.inodeTable,
    info.dataregion]

end MetadataInfo

structure Fits (info : MetadataInfo) (blocks : Int) : Prop where
  consecutive : info.regions.IsChain Extent.Follows
  disjoint : info.regions.Pairwise Extent.Disjoint
  nonneg : ∀ region ∈ info.regions, 0 ≤ region.length
  within : ∀ region ∈ info.regions, 0 ≤ region.start ∧ region.limit ≤ blocks

def inodeSpace (totalSize : Int) : Int :=
  (totalSize - 3 * totalSize / 4) / 512 - 3 * totalSize / 4 / 512 / 4096 - 1

def inodeBitmapSpace (totalSize : Int) : Int :=
  if inodeSpace totalSize / 513 % 513 ≠ 0 then inodeSpace totalSize / 513 + 1
  else inodeSpace totalSize / 513

section Sizes

variable {totalSize : Int} (hsize : 4194304 ≤ totalSize)

include hsize

theorem getMetadataInfo_eq :
    getMetadataInfo totalSize =
      { disksize := totalSize
        inodeBlocks := inodeSpace totalSize - inodeBitmapSpace totalSize
        inodeBitmapBlocks := inodeBitmapSpace totalSize
        totalInodes :=
          (inodeSpace totalSize - inodeBitmapSpace totalSize) * 8
        dataregionBlocks := 3 * totalSize / 4 / 512
        dataregionBitmapBlocks := 3 * totalSize / 4 / 512 / 4096
        dataregionBitmapStart := 1
        inodeBitmapStart := 1 + 3 * totalSize / 4 / 512 / 4096
        inodeBlocksStart :=
          1 + 3 * totalSize / 4 / 512 / 4096 + inodeBitmapSpace totalSize
        dataregionBlocksStart :=
          1 + 3 * totalSize / 4 / 512 / 4096 + inodeBitmapSpace totalSize +
            (inodeSpace totalSize - inodeBitmapSpace totalSize)
        rootdirectory := 0 } := by
  have hdata : (3 * totalSize).tdiv 4 = 3 * totalSize / 4 :=
    Int.tdiv_eq_ediv_of_nonneg (by omega)
  have hblocks : (3 * totalSize / 4).tdiv 512 = 3 * totalSize / 4 / 512 :=
    Int.tdiv_eq_ediv_of_nonneg (by omega)
  have hbitmap : (3 * totalSize / 4 / 512).tdiv 4096 =
      3 * totalSize / 4 / 512 / 4096 := Int.tdiv_eq_ediv_of_nonneg (by omega)
  have hmeta : (totalSize - 3 * totalSize / 4).tdiv 512 =
      (totalSize - 3 * totalSize / 4) / 512 :=
    Int.tdiv_eq_ediv_of_nonneg (by omega)
  have hspace : (inodeSpace totalSize).tdiv 513 = inodeSpace totalSize / 513 :=
    Int.tdiv_eq_ediv_of_nonneg (by rw [inodeSpace]; omega)
  have hrest : (inodeSpace totalSize / 513).tmod 513 =
      inodeSpace totalSize / 513 % 513 :=
    Int.tmod_eq_emod_of_nonneg (by rw [inodeSpace]; omega)
  simp only [getMetadataInfo, blockSize, bitsPerBlock, inodesPerBlock, value, hdata,
    hblocks, hbitmap, hmeta]
  rw [← inodeSpace, hspace, hrest, ← inodeBitmapSpace]

theorem inodeSpace_bounds : 513 ≤ inodeSpace totalSize ∧
    inodeSpace totalSize + 3 * totalSize / 4 / 512 / 4096 + 1 =
      (totalSize - 3 * totalSize / 4) / 512 := by
  rw [inodeSpace]
  omega

theorem inodeBitmapSpace_bounds : 1 ≤ inodeBitmapSpace totalSize ∧
    inodeBitmapSpace totalSize < inodeSpace totalSize := by
  have hspace := (inodeSpace_bounds hsize).1
  rw [inodeBitmapSpace]
  split <;> omega

theorem layout_fits : Fits (getMetadataInfo totalSize) (totalSize / 512) := by
  have hspace := inodeSpace_bounds hsize
  have hbitmap := inodeBitmapSpace_bounds hsize
  have hconsecutive :
      (getMetadataInfo totalSize).regions.IsChain Extent.Follows := by
    rw [getMetadataInfo_eq hsize]
    simp [MetadataInfo.regions, Extent.Follows, Extent.limit, MetadataInfo.superblock,
      MetadataInfo.dataregionBitmap, MetadataInfo.inodeBitmap, MetadataInfo.inodeTable,
      MetadataInfo.dataregion]
  have hnonneg :
      ∀ region ∈ (getMetadataInfo totalSize).regions, 0 ≤ region.length := by
    rw [getMetadataInfo_eq hsize]
    simp only [MetadataInfo.regions, List.forall_mem_cons, MetadataInfo.superblock,
      MetadataInfo.dataregionBitmap, MetadataInfo.inodeBitmap, MetadataInfo.inodeTable,
      MetadataInfo.dataregion, List.not_mem_nil, false_implies, implies_true, and_true]
    omega
  have hwithin : ∀ region ∈ (getMetadataInfo totalSize).regions,
      0 ≤ region.start ∧ region.limit ≤ totalSize / 512 := by
    rw [getMetadataInfo_eq hsize]
    simp only [MetadataInfo.regions, List.forall_mem_cons, Extent.limit,
      MetadataInfo.superblock, MetadataInfo.dataregionBitmap, MetadataInfo.inodeBitmap,
      MetadataInfo.inodeTable, MetadataInfo.dataregion, List.not_mem_nil, false_implies,
      implies_true, and_true]
    omega
  exact ⟨hconsecutive, Extent.Follows.disjoint hconsecutive hnonneg, hnonneg, hwithin⟩

end Sizes

/-- The regions fit, and each block of the data region has a bit in its own bitmap. -/
structure DataCovered (info : MetadataInfo) (blocks : Int) : Prop where
  fits : Fits info blocks
  covers : info.dataregionBlocks ≤ info.dataregionBitmapBlocks * bitsPerBlock
  apart : ∀ (fs : FileSystem) (n status : Int), fs.info = info → 0 ≤ n →
    n < info.dataregionBlocks →
      statusBlock info.dataregionBitmapStart n ∉ info.inodeBitmap ∧
        ∀ b ∈ info.inodeBitmap, (fs.setDataregionStatus n status).disk b = fs.disk b

theorem statusBlock_eq {start number : Int} (h : 0 ≤ number) :
    statusBlock start number = start + number / 4096 := by
  rw [statusBlock, bitsPerBlock, Int.tdiv_eq_ediv_of_nonneg h]

section Bitmaps

variable {totalSize : Int} (hsize : 4194304 ≤ totalSize)

include hsize

/-- For every size: exactly when the data blocks fill their bitmap blocks. -/
theorem dataregion_covered_iff :
    DataCovered (getMetadataInfo totalSize) (totalSize / 512) ↔
      3 * totalSize / 4 % 2097152 < 512 := by
  have hbitmap := inodeBitmapSpace_bounds hsize
  have heq := getMetadataInfo_eq hsize
  have hnested : 3 * totalSize / 4 / 512 / 4096 = 3 * totalSize / 4 / 2097152 :=
    Int.ediv_ediv_of_nonneg (by decide)
  constructor
  · intro h
    have hcovers := h.covers
    rw [heq, bitsPerBlock] at hcovers
    dsimp only at hcovers
    omega
  · intro h
    have hcovers : 3 * totalSize / 4 / 512 = 3 * totalSize / 4 / 512 / 4096 * 4096 := by
      omega
    refine ⟨layout_fits hsize, ?_, ?_⟩
    · rw [heq, bitsPerBlock]
      exact Int.le_of_eq hcovers
    · intro fs n status hinfo hlow hhigh
      have hblock : statusBlock (getMetadataInfo totalSize).dataregionBitmapStart n ∉
          (getMetadataInfo totalSize).inodeBitmap := by
        rw [heq] at hhigh ⊢
        dsimp only at hhigh
        rw [statusBlock_eq hlow, Extent.mem_iff]
        dsimp only [MetadataInfo.inodeBitmap]
        omega
      refine ⟨hblock, fun b hb => ?_⟩
      apply setStatus_outside
      intro heq
      apply hblock
      rw [← hinfo, ← heq, hinfo]
      exact hb

end Bitmaps

theorem eight_megabytes_covered :
    DataCovered (getMetadataInfo 8388608) (8388608 / 512) :=
  (dataregion_covered_iff (by decide)).mpr (by decide)

/-- Four megabytes have 6144 data blocks and one bitmap block, so bit 4096 is the
first bit of the inode bitmap. -/
theorem four_megabytes_uncovered :
    ¬ DataCovered (getMetadataInfo 4194304) (4194304 / 512) := by
  intro h
  exact absurd h.covers (by decide)

/-- Each inode has a bit in the bitmap of the inodes, so its status is not kept in
the inode table. -/
structure InodesCovered (info : MetadataInfo) : Prop where
  covers : info.totalInodes ≤ info.inodeBitmapBlocks * bitsPerBlock
  apart : ∀ (fs : FileSystem) (n status : Int), fs.info = info → 0 ≤ n →
    n < info.totalInodes →
      statusBlock info.inodeBitmapStart n ∉ info.inodeTable ∧
        ∀ b ∈ info.inodeTable, (fs.setInodeStatus n status).disk b = fs.disk b ∧
          ∀ block, ((fs.blockWrite b block).checkInodeStatus n).1 =
            (fs.checkInodeStatus n).1

section InodeBitmap

variable {totalSize : Int} (hsize : 4194304 ≤ totalSize)

include hsize

theorem inodes_covered_of_space
    (h : inodeSpace totalSize / 513 % 513 = 0 → inodeSpace totalSize % 513 = 0) :
    InodesCovered (getMetadataInfo totalSize) := by
  have hspace := (inodeSpace_bounds hsize).1
  have heq := getMetadataInfo_eq hsize
  have hcovers : (inodeSpace totalSize - inodeBitmapSpace totalSize) * 8 ≤
      inodeBitmapSpace totalSize * 4096 := by
    rw [inodeBitmapSpace]
    split
    · omega
    · next hzero =>
        have hrest := h (by omega)
        omega
  refine ⟨?_, ?_⟩
  · rw [heq, bitsPerBlock]
    exact hcovers
  · intro fs n status hinfo hlow hhigh
    have hblock : statusBlock (getMetadataInfo totalSize).inodeBitmapStart n ∉
        (getMetadataInfo totalSize).inodeTable := by
      rw [heq] at hhigh ⊢
      dsimp only at hhigh
      rw [statusBlock_eq hlow, Extent.mem_iff]
      dsimp only [MetadataInfo.inodeTable]
      omega
    refine ⟨hblock, fun b hb => ?_⟩
    have hne : b ≠ statusBlock fs.info.inodeBitmapStart n := by
      rw [hinfo]
      intro heq
      exact hblock (heq ▸ hb)
    refine ⟨setStatus_outside _ _ _ _ hne, fun block => ?_⟩
    rw [FileSystem.checkInodeStatus, FileSystem.checkStatus, FileSystem.checkStatus]
    dsimp only [FileSystem.blockRead, FileSystem.blockWrite]
    rw [Function.update_of_ne hne.symm]

omit hsize in
/-- Away from the steps of the data bitmap, the space grows by a block for each two
kilobytes. -/
theorem le_inodeSpace_iff (space start : Int) {m d : Int} (hspace : space = m - d - 1)
    (hstart : start = 2048 * m - 3) (hlow : 8388608 * d ≤ 3 * (start - 8192))
    (hhigh : 3 * (start + 8192) < 8388608 * (d + 1)) :
    space ≤ inodeSpace totalSize ↔ start ≤ totalSize := by
  have hnested : 3 * totalSize / 4 / 512 / 4096 = 3 * totalSize / 4 / 2097152 :=
    Int.ediv_ediv_of_nonneg (by decide)
  rw [inodeSpace, hnested]
  rcases Int.lt_or_le totalSize (start - 8192) with hbelow | hnear
  · omega
  · rcases Int.lt_or_le totalSize (start + 8192) with hwindow | habove
    · have hstep : 3 * totalSize / 4 / 2097152 = d := by omega
      rw [hstep]
      omega
    · omega

/-- For every size of an `int`: three ranges have a block of inodes more than their
bitmap counts. -/
theorem inodes_covered_iff (hint : totalSize < 2 ^ 31) :
    InodesCovered (getMetadataInfo totalSize) ↔
      ¬ (539367421 ≤ totalSize ∧ totalSize < 540418045) ∧
        ¬ (1078732797 ≤ totalSize ∧ totalSize < 1079783421) ∧
          ¬ (1618098173 ≤ totalSize ∧ totalSize < 1619148797) := by
  have hspace := (inodeSpace_bounds hsize).1
  have hmost : inodeSpace totalSize < 1052676 := by
    rw [inodeSpace]
    omega
  -- where the space enters and leaves the blocks after a multiple of 513 * 513
  have hfirst : 263170 ≤ inodeSpace totalSize ↔ 539367421 ≤ totalSize :=
    le_inodeSpace_iff _ _ (m := 263363) (d := 192) rfl rfl (by decide) (by decide)
  have hfirst' : 263682 ≤ inodeSpace totalSize ↔ 540418045 ≤ totalSize :=
    le_inodeSpace_iff _ _ (m := 263876) (d := 193) rfl rfl (by decide) (by decide)
  have hsecond : 526339 ≤ inodeSpace totalSize ↔ 1078732797 ≤ totalSize :=
    le_inodeSpace_iff _ _ (m := 526725) (d := 385) rfl rfl (by decide) (by decide)
  have hsecond' : 526851 ≤ inodeSpace totalSize ↔ 1079783421 ≤ totalSize :=
    le_inodeSpace_iff _ _ (m := 527238) (d := 386) rfl rfl (by decide) (by decide)
  have hthird : 789508 ≤ inodeSpace totalSize ↔ 1618098173 ≤ totalSize :=
    le_inodeSpace_iff _ _ (m := 790087) (d := 578) rfl rfl (by decide) (by decide)
  have hthird' : 790020 ≤ inodeSpace totalSize ↔ 1619148797 ≤ totalSize :=
    le_inodeSpace_iff _ _ (m := 790600) (d := 579) rfl rfl (by decide) (by decide)
  constructor
  · intro h
    have hcovers := h.covers
    rw [getMetadataInfo_eq hsize, bitsPerBlock] at hcovers
    dsimp only at hcovers
    rw [inodeBitmapSpace] at hcovers
    split at hcovers
    · omega
    · omega
  · intro h
    apply inodes_covered_of_space hsize
    omega

end InodeBitmap

theorem four_megabytes_inodes_covered : InodesCovered (getMetadataInfo 4194304) :=
  (inodes_covered_iff (by decide) (by decide)).mpr (by decide)

/-- 386 times four megabytes leave 789948 blocks, where the 1539 bitmap blocks and the
inode blocks they count are 789507. -/
theorem inodes_uncovered : ¬ InodesCovered (getMetadataInfo 1619001344) := by
  intro h
  exact absurd h.covers (by decide)

end RutgersOS.Sfs
