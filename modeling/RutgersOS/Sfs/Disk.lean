import Mathlib.Logic.Function.Basic
import RutgersOS.Memory.Bytes

namespace RutgersOS.Sfs

open RutgersOS.Memory

/-! `test/block.c` and the metadata accesses of `test/test.c`.  A disk maps block
numbers to their bytes, and block reads and writes transfer whole blocks.  C
structs are views of bytes, so an `inode` is 64 bytes and a `filepath_block`
512. -/

def blockSize : Int := 512

def bitsPerBlock : Int := 4096

def bitsPerByte : Int := 8

def inodesPerBlock : Int := 8

def zeroIndexBits : Int := 7

def value : Int := 513

structure MetadataInfo where
  dataregionBitmapBlocks : Int
  dataregionBitmapStart : Int
  inodeBitmapBlocks : Int
  inodeBitmapStart : Int
  inodeBlocks : Int
  inodeBlocksStart : Int
  totalInodes : Int
  dataregionBlocks : Int
  dataregionBlocksStart : Int
  disksize : Int
  rootdirectory : Int

/-- The product `0.75 * total_size` is exact, and its conversion truncates. -/
def getMetadataInfo (totalSize : Int) : MetadataInfo :=
  let dataSize := (3 * totalSize).tdiv 4
  let dataBlocks := dataSize.tdiv blockSize
  let dataBitmapBlocks := dataBlocks.tdiv bitsPerBlock
  let metadataSize := totalSize - dataSize
  let numMetadataBlocks := metadataSize.tdiv blockSize
  let numMetadataBlocks := numMetadataBlocks - dataBitmapBlocks - 1
  let inodeBitmap := numMetadataBlocks.tdiv value
  let inodeBitmap :=
    if inodeBitmap.tmod value ≠ 0 then inodeBitmap + 1 else inodeBitmap
  let numMetadataBlocks := numMetadataBlocks - inodeBitmap
  { disksize := totalSize
    inodeBlocks := numMetadataBlocks
    inodeBitmapBlocks := inodeBitmap
    totalInodes := numMetadataBlocks * inodesPerBlock
    dataregionBlocks := dataBlocks
    dataregionBitmapBlocks := dataBitmapBlocks
    dataregionBitmapStart := 1
    inodeBitmapStart := 1 + dataBitmapBlocks
    inodeBlocksStart := 1 + dataBitmapBlocks + inodeBitmap
    dataregionBlocksStart :=
      1 + dataBitmapBlocks + inodeBitmap + numMetadataBlocks
    rootdirectory := 0 }

abbrev Disk := Int → Bytes

structure FileSystem where
  disk : Disk
  buffer : Bytes
  entryBuffer : Bytes
  info : MetadataInfo

/-! A `char` of a bitmap is signed, so it is extended to an `int` by its sign. -/

/-- `(data_bits & (1 << bit)) >> bit` -/
def testBit (dataBits : UInt8) (bit : Nat) : Int :=
  ((dataBits.toBitVec.signExtend 32 &&& (1#32 <<< bit)).sshiftRight bit).toInt

/-- `data_bits ^= (-status ^ data_bits) & (1 << bit)` -/
def assignBit (dataBits : UInt8) (status : Int) (bit : Nat) : UInt8 :=
  let word := dataBits.toBitVec.signExtend 32
  ⟨(word ^^^ ((BitVec.ofInt 32 (-status) ^^^ word) &&& (1#32 <<< bit))).setWidth
    8⟩

theorem signExtend_getLsbD (dataBits : UInt8) {i : Nat} (hi : i < 8) :
    (dataBits.toBitVec.signExtend 32).getLsbD i =
      dataBits.toBitVec.getLsbD i := by
  rw [BitVec.getLsbD_signExtend]
  have hlow : i < 32 := by omega
  simp [hi, hlow]

theorem testBit_eq (dataBits : UInt8) {bit : Nat} (hbit : bit < 8) :
    testBit dataBits bit =
      if dataBits.toBitVec.getLsbD bit then 1 else 0 := by
  have hmask : dataBits.toBitVec.signExtend 32 &&& (1#32 <<< bit) =
      if dataBits.toBitVec.getLsbD bit then 1#32 <<< bit else 0#32 := by
    rw [← signExtend_getLsbD dataBits hbit]
    exact BitVec.and_twoPow _ _
  have hshift : ∀ i : Fin 8,
      ((1#32 <<< i.val).sshiftRight i.val).toInt = 1 := by decide
  rw [testBit, hmask]
  split
  · exact hshift ⟨bit, hbit⟩
  · simp

theorem testBit_cases (dataBits : UInt8) {bit : Nat} (hbit : bit < 8) :
    testBit dataBits bit = 0 ∨ testBit dataBits bit = 1 := by
  rw [testBit_eq dataBits hbit]
  split
  · exact Or.inr rfl
  · exact Or.inl rfl

theorem oneShift_getLsbD {bit i : Nat} (hbit : bit < 8) (hi : i < 8) :
    (1#32 <<< bit).getLsbD i = decide (i = bit) := by
  have hall : ∀ b j : Fin 8,
      (1#32 <<< b.val).getLsbD j.val = decide (j.val = b.val) := by decide
  exact hall ⟨bit, hbit⟩ ⟨i, hi⟩

theorem minus_getLsbD {status : Int} (hstatus : status = 0 ∨ status = 1)
    {i : Nat} (hi : i < 8) :
    (BitVec.ofInt 32 (-status)).getLsbD i = decide (status = 1) := by
  have hall : ∀ j : Fin 8,
      (BitVec.ofInt 32 0).getLsbD j.val = false ∧
        (BitVec.ofInt 32 (-1)).getLsbD j.val = true := by decide
  rcases hstatus with rfl | rfl
  · exact (hall ⟨i, hi⟩).1
  · exact (hall ⟨i, hi⟩).2

theorem assignBit_getLsbD (dataBits : UInt8) {status : Int}
    (hstatus : status = 0 ∨ status = 1) {bit i : Nat} (hbit : bit < 8)
    (hi : i < 8) :
    (assignBit dataBits status bit).toBitVec.getLsbD i =
      if i = bit then decide (status = 1) else dataBits.toBitVec.getLsbD i := by
  rw [assignBit, BitVec.getLsbD_setWidth, BitVec.getLsbD_xor,
    BitVec.getLsbD_and, BitVec.getLsbD_xor, signExtend_getLsbD dataBits hi,
    oneShift_getLsbD hbit hi, minus_getLsbD hstatus hi]
  split
  · next heq => simp [heq, hbit, Bool.xor_left_comm]
  · next hne => simp [hi, hne]

theorem testBit_assignBit (dataBits : UInt8) {status : Int}
    (hstatus : status = 0 ∨ status = 1) {bit i : Nat} (hbit : bit < 8)
    (hi : i < 8) :
    testBit (assignBit dataBits status bit) i =
      if i = bit then status else testBit dataBits i := by
  rw [testBit_eq _ hi, testBit_eq _ hi, assignBit_getLsbD dataBits hstatus hbit hi]
  split
  · rcases hstatus with rfl | rfl <;> rfl
  · rfl

def statusBlock (start number : Int) : Int :=
  start + number.tdiv bitsPerBlock

def statusByte (number : Int) : Int :=
  (number - bitsPerBlock * number.tdiv bitsPerBlock).tdiv bitsPerByte

def statusOffset (number : Int) : Nat :=
  (zeroIndexBits - (number - bitsPerBlock * number.tdiv bitsPerBlock -
    statusByte number * bitsPerByte)).toNat

def statusBit (disk : Disk) (start number : Int) : Int :=
  testBit (disk (statusBlock start number) (statusByte number))
    (statusOffset number)

namespace FileSystem

def blockRead (fs : FileSystem) (blockNum : Int) : Bytes :=
  fs.disk blockNum

def blockWrite (fs : FileSystem) (blockNum : Int) (block : Bytes) : FileSystem :=
  { fs with disk := Function.update fs.disk blockNum block }

def checkStatus (start : MetadataInfo → Int) (fs : FileSystem) (number : Int) :
    Int × FileSystem :=
  let fs :=
    { fs with buffer := fs.blockRead (statusBlock (start fs.info) number) }
  (testBit (fs.buffer (statusByte number)) (statusOffset number), fs)

def setStatus (start : MetadataInfo → Int) (fs : FileSystem)
    (number status : Int) : FileSystem :=
  let block := statusBlock (start fs.info) number
  let fs := { fs with buffer := fs.blockRead block }
  let dataBits := fs.buffer (statusByte number)
  let fs :=
    { fs with
      buffer :=
        Function.update fs.buffer (statusByte number)
          (assignBit dataBits status (statusOffset number)) }
  fs.blockWrite block fs.buffer

def checkInodeStatus : FileSystem → Int → Int × FileSystem :=
  checkStatus MetadataInfo.inodeBitmapStart

def setInodeStatus : FileSystem → Int → Int → FileSystem :=
  setStatus MetadataInfo.inodeBitmapStart

def checkDataregionStatus : FileSystem → Int → Int × FileSystem :=
  checkStatus MetadataInfo.dataregionBitmapStart

def setDataregionStatus : FileSystem → Int → Int → FileSystem :=
  setStatus MetadataInfo.dataregionBitmapStart

end FileSystem

theorem statusOffset_lt {number : Int} (h : 0 ≤ number) :
    statusOffset number < 8 := by
  simp only [statusOffset, statusByte, bitsPerBlock, bitsPerByte, zeroIndexBits,
    Int.tdiv_eq_ediv_of_nonneg h]
  rw [Int.tdiv_eq_ediv_of_nonneg (by omega)]
  omega

theorem status_address_inj {start first second : Int} (hfirst : 0 ≤ first)
    (hsecond : 0 ≤ second)
    (hblock : statusBlock start first = statusBlock start second)
    (hbyte : statusByte first = statusByte second)
    (hoffset : statusOffset first = statusOffset second) : first = second := by
  simp only [statusBlock, statusByte, statusOffset, bitsPerBlock, bitsPerByte,
    zeroIndexBits, Int.tdiv_eq_ediv_of_nonneg hfirst,
    Int.tdiv_eq_ediv_of_nonneg hsecond] at hblock hbyte hoffset
  rw [Int.tdiv_eq_ediv_of_nonneg (by omega),
    Int.tdiv_eq_ediv_of_nonneg (by omega)] at hbyte hoffset
  omega

theorem statusBit_cases (disk : Disk) (start : Int) {number : Int}
    (h : 0 ≤ number) :
    statusBit disk start number = 0 ∨ statusBit disk start number = 1 :=
  testBit_cases _ (statusOffset_lt h)

/-- The bitmap after a `set_inode_status` or `set_dataregion_status`. -/
theorem statusBit_setStatus (start : MetadataInfo → Int) (fs : FileSystem)
    {number other status : Int} (hnumber : 0 ≤ number) (hother : 0 ≤ other)
    (hstatus : status = 0 ∨ status = 1) :
    statusBit (fs.setStatus start number status).disk (start fs.info) other =
      if other = number then status
      else statusBit fs.disk (start fs.info) other := by
  unfold statusBit
  change testBit (Function.update fs.disk (statusBlock (start fs.info) number)
    (Function.update (fs.disk (statusBlock (start fs.info) number))
      (statusByte number) (assignBit _ status (statusOffset number))) _ _) _ = _
  rcases Classical.em (statusBlock (start fs.info) other =
      statusBlock (start fs.info) number) with hblock | hblock
  · rw [hblock, Function.update_self]
    rcases Classical.em (statusByte other = statusByte number) with
      hbyte | hbyte
    · rw [hbyte, Function.update_self, testBit_assignBit _ hstatus
        (statusOffset_lt hnumber) (statusOffset_lt hother)]
      rcases Classical.em (statusOffset other = statusOffset number) with
        hoffset | hoffset
      · obtain rfl := status_address_inj hother hnumber hblock hbyte hoffset
        rw [if_pos rfl, if_pos rfl]
      · have hne : other ≠ number := by
          rintro rfl
          exact hoffset rfl
        rw [if_neg hoffset, if_neg hne]
        rfl
    · have hne : other ≠ number := by
        rintro rfl
        exact hbyte rfl
      rw [Function.update_of_ne hbyte, if_neg hne]
  · have hne : other ≠ number := by
      rintro rfl
      exact hblock rfl
    rw [Function.update_of_ne hblock, if_neg hne]

theorem setStatus_outside (start : MetadataInfo → Int) (fs : FileSystem)
    (number status : Int) {block : Int}
    (h : block ≠ statusBlock (start fs.info) number) :
    (fs.setStatus start number status).disk block = fs.disk block :=
  Function.update_of_ne h _ _

def inodeBlock (start number : Int) : Int :=
  start + number.tdiv inodesPerBlock

def inodeOffset (number : Int) : Int :=
  64 * (number - inodesPerBlock * number.tdiv inodesPerBlock)

def inodeAt (disk : Disk) (start number : Int) : Bytes :=
  fun x => disk (inodeBlock start number) (inodeOffset number + x)

namespace Inode

def direct (j : Nat) : Int := 4 + 4 * j

def directPtr (node : Bytes) (j : Nat) : Int :=
  (node.load (direct j)).toInt

def setDirectPtr (node : Bytes) (j : Nat) (ptr : Int) : Bytes :=
  node.store (direct j) (BitVec.ofInt 32 ptr)

def setSize (node : Bytes) (size : Int) : Bytes :=
  node.store 0 (BitVec.ofInt 32 size)

def setFlags (node : Bytes) (flags : UInt8) : Bytes :=
  Function.update (Function.update node 60 flags) 61 0

end Inode

namespace FileSystem

def getInode (fs : FileSystem) (number : Int) : Bytes × FileSystem :=
  let fs :=
    { fs with
      entryBuffer :=
        fs.blockRead (inodeBlock fs.info.inodeBlocksStart number) }
  (fun x => fs.entryBuffer (inodeOffset number + x), fs)

def setInode (fs : FileSystem) (number : Int) (node : Bytes) : FileSystem :=
  let block := inodeBlock fs.info.inodeBlocksStart number
  let offset := inodeOffset number
  let fs := { fs with entryBuffer := fs.blockRead block }
  let fs :=
    { fs with
      entryBuffer := fun x =>
        if offset ≤ x ∧ x < offset + 64 then node (x - offset)
        else fs.entryBuffer x }
  fs.blockWrite block fs.entryBuffer

end FileSystem

theorem setInode_disk (fs : FileSystem) (number : Int) (node : Bytes) :
    (fs.setInode number node).disk =
      Function.update fs.disk (inodeBlock fs.info.inodeBlocksStart number)
        fun x =>
          if inodeOffset number ≤ x ∧ x < inodeOffset number + 64 then
            node (x - inodeOffset number)
          else fs.disk (inodeBlock fs.info.inodeBlocksStart number) x :=
  rfl

theorem inodeOffset_eq {number : Int} (h : 0 ≤ number) :
    inodeOffset number = 64 * (number % 8) := by
  simp only [inodeOffset, inodesPerBlock, Int.tdiv_eq_ediv_of_nonneg h]
  omega

theorem inodeAt_setInode (fs : FileSystem) {number other : Int}
    (hnumber : 0 ≤ number) (hother : 0 ≤ other) (node : Bytes) {x : Int}
    (hlow : 0 ≤ x) (hhigh : x < 64) :
    inodeAt (fs.setInode number node).disk fs.info.inodeBlocksStart other x =
      if other = number then node x
      else inodeAt fs.disk fs.info.inodeBlocksStart other x := by
  have hblock : ∀ n, 0 ≤ n → inodeBlock fs.info.inodeBlocksStart n =
      fs.info.inodeBlocksStart + n / 8 := by
    intro n hn
    simp only [inodeBlock, inodesPerBlock, Int.tdiv_eq_ediv_of_nonneg hn]
  rcases Classical.em (other = number) with rfl | hne
  · rw [if_pos rfl, inodeAt, setInode_disk, Function.update_self,
      if_pos (by omega)]
    exact congrArg node (by omega)
  · rw [if_neg hne, inodeAt, inodeAt, setInode_disk]
    rcases Classical.em (inodeBlock fs.info.inodeBlocksStart other =
        inodeBlock fs.info.inodeBlocksStart number) with heq | hother'
    · rw [heq, Function.update_self]
      apply if_neg
      rw [hblock other hother, hblock number hnumber] at heq
      rw [inodeOffset_eq hother, inodeOffset_eq hnumber]
      omega
    · rw [Function.update_of_ne hother']

theorem inodeAt_setInode_load (fs : FileSystem) {number other : Int}
    (hnumber : 0 ≤ number) (hother : 0 ≤ other) (node : Bytes) {k : Int}
    (hlow : 0 ≤ k) (hhigh : k + 4 ≤ 64) :
    (inodeAt (fs.setInode number node).disk fs.info.inodeBlocksStart other).load
        k =
      if other = number then node.load k
      else (inodeAt fs.disk fs.info.inodeBlocksStart other).load k := by
  have hbytes : ∀ x, k ≤ x → x < k + 4 →
      inodeAt (fs.setInode number node).disk fs.info.inodeBlocksStart other x =
        if other = number then node x
        else inodeAt fs.disk fs.info.inodeBlocksStart other x :=
    fun x hxlow hxhigh =>
      inodeAt_setInode fs hnumber hother node (by omega) (by omega)
  split
  · next heq =>
      refine Bytes.load_congr fun x hxlow hxhigh => ?_
      rw [hbytes x hxlow hxhigh, if_pos heq]
  · next hne =>
      refine Bytes.load_congr fun x hxlow hxhigh => ?_
      rw [hbytes x hxlow hxhigh, if_neg hne]

theorem setInode_outside (fs : FileSystem) (number : Int) (node : Bytes)
    {block : Int} (h : block ≠ inodeBlock fs.info.inodeBlocksStart number) :
    (fs.setInode number node).disk block = fs.disk block :=
  Function.update_of_ne h _ _

end RutgersOS.Sfs
