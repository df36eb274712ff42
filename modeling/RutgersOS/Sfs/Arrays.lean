import RutgersOS.Sfs.Disk

namespace RutgersOS.Sfs

open RutgersOS.Memory

structure Place where
  block : Int
  byte : Int
  bit : Nat

def Disk.bitAt (disk : Disk) (place : Place) : Bool :=
  (disk place.block place.byte).toBitVec.getLsbD place.bit

def statusPlace (start number : Int) : Place :=
  ⟨statusBlock start number, statusByte number, statusOffset number⟩

theorem statusByte_bounds {number : Int} (h : 0 ≤ number) :
    0 ≤ statusByte number ∧ statusByte number < blockSize := by
  simp only [statusByte, bitsPerBlock, bitsPerByte, blockSize,
    Int.tdiv_eq_ediv_of_nonneg h]
  rw [Int.tdiv_eq_ediv_of_nonneg (by omega)]
  omega

structure BitArray (start : MetadataInfo → Int)
    (check : FileSystem → Int → Int × FileSystem)
    (set : FileSystem → Int → Int → FileSystem) : Prop where
  within : ∀ n, 0 ≤ n →
    0 ≤ statusByte n ∧ statusByte n < blockSize ∧ statusOffset n < 8
  check_disk : ∀ fs n, (check fs n).2.disk = fs.disk
  check_set : ∀ fs m n status, 0 ≤ m → 0 ≤ n → status = 0 ∨ status = 1 →
    (check (set fs m status) n).1 = if m = n then status else (check fs n).1
  outside : ∀ fs m status, 0 ≤ m → status = 0 ∨ status = 1 →
    ∀ place : Place, place.bit < 8 → place ≠ statusPlace (start fs.info) m →
      (set fs m status).disk.bitAt place = fs.disk.bitAt place

theorem setStatus_bitAt (start : MetadataInfo → Int) (fs : FileSystem) {m status : Int}
    (hm : 0 ≤ m) (hstatus : status = 0 ∨ status = 1) {place : Place}
    (hbit : place.bit < 8) (hne : place ≠ statusPlace (start fs.info) m) :
    (fs.setStatus start m status).disk.bitAt place = fs.disk.bitAt place := by
  obtain ⟨block, byte, bit⟩ := place
  change (Function.update fs.disk (statusBlock (start fs.info) m)
    (Function.update (fs.disk (statusBlock (start fs.info) m)) (statusByte m)
      (assignBit _ status (statusOffset m))) block byte).toBitVec.getLsbD bit =
    (fs.disk block byte).toBitVec.getLsbD bit
  rcases Classical.em (block = statusBlock (start fs.info) m) with hblock | hblock
  · rw [hblock, Function.update_self]
    rcases Classical.em (byte = statusByte m) with hbyte | hbyte
    · have hoffset : bit ≠ statusOffset m := by
        intro heq
        apply hne
        rw [hblock, hbyte, heq, statusPlace]
      rw [hbyte, Function.update_self,
        assignBit_getLsbD _ hstatus (statusOffset_lt hm) hbit, if_neg hoffset]
      rfl
    · rw [Function.update_of_ne hbyte]
  · rw [Function.update_of_ne hblock]

theorem statusArray (start : MetadataInfo → Int) :
    BitArray start (FileSystem.checkStatus start) (FileSystem.setStatus start) where
  within _ hn :=
    ⟨(statusByte_bounds hn).1, (statusByte_bounds hn).2, statusOffset_lt hn⟩
  check_disk _ _ := rfl
  check_set fs m n status hm hn hstatus := by
    have hbit := statusBit_setStatus start fs hm hn hstatus
    change statusBit (fs.setStatus start m status).disk (start fs.info) n = _
    rw [hbit]
    simp only [eq_comm]
    rfl
  outside fs _ _ hm hstatus _ hbit hne := setStatus_bitAt start fs hm hstatus hbit hne

def InSlot (start number block byte : Int) : Prop :=
  block = inodeBlock start number ∧ inodeOffset number ≤ byte ∧
    byte < inodeOffset number + 64

structure InodeArray (start : MetadataInfo → Int)
    (get : FileSystem → Int → Bytes × FileSystem)
    (set : FileSystem → Int → Bytes → FileSystem) : Prop where
  within : ∀ n, 0 ≤ n → 0 ≤ inodeOffset n ∧ inodeOffset n + 64 ≤ blockSize
  get_disk : ∀ fs n, (get fs n).2.disk = fs.disk
  get_set : ∀ fs m n node, 0 ≤ m → 0 ≤ n → ∀ x, 0 ≤ x → x < 64 →
    (get (set fs m node) n).1 x = if m = n then node x else (get fs n).1 x
  outside : ∀ fs m node block byte, ¬ InSlot (start fs.info) m block byte →
    (set fs m node).disk block byte = fs.disk block byte

theorem inodeTable : InodeArray MetadataInfo.inodeBlocksStart FileSystem.getInode
    FileSystem.setInode where
  within n hn := by
    rw [inodeOffset_eq hn, blockSize]
    omega
  get_disk _ _ := rfl
  get_set fs m n node hm hn x hlow hhigh := by
    have hslot := inodeAt_setInode fs hm hn node hlow hhigh
    change inodeAt (fs.setInode m node).disk fs.info.inodeBlocksStart n x = _
    rw [hslot]
    simp only [eq_comm]
    rfl
  outside fs m node block byte hout := by
    rw [setInode_disk]
    rcases Classical.em (block = inodeBlock fs.info.inodeBlocksStart m) with heq | hne
    · rw [heq, Function.update_self]
      exact if_neg fun hin => hout ⟨heq, hin⟩
    · rw [Function.update_of_ne hne]

theorem arrays_on_disk :
    BitArray MetadataInfo.inodeBitmapStart FileSystem.checkInodeStatus
        FileSystem.setInodeStatus ∧
      BitArray MetadataInfo.dataregionBitmapStart FileSystem.checkDataregionStatus
        FileSystem.setDataregionStatus ∧
      InodeArray MetadataInfo.inodeBlocksStart FileSystem.getInode
        FileSystem.setInode :=
  ⟨statusArray _, statusArray _, inodeTable⟩

end RutgersOS.Sfs
