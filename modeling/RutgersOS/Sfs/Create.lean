import Mathlib.Algebra.Group.Int.Defs
import RutgersOS.Sfs.Disk
import RutgersOS.Sfs.Path

namespace RutgersOS.Sfs

open RutgersOS.Memory

/-- `strcmp(string, block->filepath) == 0`, from byte `k` of the block on. -/
def strcmpEqual (block : Bytes) (k : Int) : List UInt8 → Bool
  | [] => block k = 0
  | c :: rest => c = block k ∧ strcmpEqual block (k + 1) rest

/-- `strcpy(block->filepath, string)`, from byte `k` of the block on. -/
def strcpy (block : Bytes) (k : Int) : List UInt8 → Bytes
  | [] => Function.update block k 0
  | c :: rest => strcpy (Function.update block k c) (k + 1) rest

namespace FilepathBlock

def inode (block : Bytes) : Int :=
  (block.load 508).toInt

def setInode (block : Bytes) (number : Int) : Bytes :=
  block.store 508 (BitVec.ofInt 32 number)

/-- A local `filepath_block` with its two fields set.  The bytes after the name
stay what the stack held. -/
def make (stale : Bytes) (name : List UInt8) (number : Int) : Bytes :=
  setInode (strcpy stale 0 name) number

end FilepathBlock

/-- The fields of `info` in the order of the struct, on a stale block. -/
def superBlock (stale : Bytes) (info : MetadataInfo) : Bytes :=
  [info.dataregionBitmapBlocks, info.dataregionBitmapStart,
    info.inodeBitmapBlocks, info.inodeBitmapStart, info.inodeBlocks,
    info.inodeBlocksStart, info.totalInodes, info.dataregionBlocks,
    info.dataregionBlocksStart, info.disksize, info.rootdirectory].zipIdx.foldl
      (fun block field => block.store (4 * field.2) (BitVec.ofInt 32 field.1))
      stale

/-- `size`, the pointers, `test` and `flags` set to 0.  They end at byte 62, and the
two bytes behind them are padding. -/
def Inode.clear (stale : Bytes) : Bytes :=
  fun x => if 0 ≤ x ∧ x < 62 then 0 else stale x

/-- An `inode_block` with `node` in all eight places of its `list`. -/
def inodeList (node : Bytes) : Bytes :=
  fun x => node (x % 64)

namespace FileSystem

/-- `for (i = 0; i < n; i++) { block_write(count, block); count++; }` -/
def writeBlocks (fs : FileSystem) (count : Int) (block : Bytes) :
    Nat → FileSystem
  | 0 => fs
  | n + 1 => (fs.blockWrite count block).writeBlocks (count + 1) block n

/-- `sfs_init` on a disk file of `totalSize` bytes.  The `stale` bytes are what the
locals `node`, `sblock` and `fblock` hold before they are assigned. -/
def sfsInit (fs : FileSystem) (totalSize : Int)
    (staleNode staleSblock staleFblock : Bytes) : FileSystem :=
  let node := Inode.clear staleNode
  let block := inodeList node
  let info := getMetadataInfo totalSize
  let fs := { fs with info := info }
  let fs := fs.blockWrite 0 (superBlock staleSblock info)
  let count := 1
  let dataBitmap := info.dataregionBitmapBlocks.toNat
  let fs := fs.writeBlocks count fs.buffer dataBitmap
  let count := count + dataBitmap
  let inodeBitmap := info.inodeBitmapBlocks.toNat
  let fs := fs.writeBlocks count fs.buffer inodeBitmap
  let count := count + inodeBitmap
  let fs := fs.writeBlocks count block info.inodeBlocks.toNat
  let fblock := FilepathBlock.make staleFblock [] 0
  let (firstNode, fs) := fs.getInode 0
  let firstNode := Inode.setFlags (Inode.setSize firstNode (12 * blockSize)) 1
  let fs := fs.setInode 0 firstNode
  let fs := fs.setInodeStatus 0 1
  let fs := fs.setDataregionStatus 0 1
  fs.blockWrite info.dataregionBlocksStart fblock

/-- The first of the `n` numbers from `i` on whose status is 0. -/
def findFree (check : FileSystem → Int → Int × FileSystem) (fs : FileSystem)
    (i : Int) : Nat → Int × FileSystem
  | 0 => (-1, fs)
  | n + 1 =>
      let (status, fs) := check fs i
      if status = 0 then (i, fs) else findFree check fs (i + 1) n

def findFreeDatablock (fs : FileSystem) : Int × FileSystem :=
  findFree checkDataregionStatus fs 0 fs.info.dataregionBlocks.toNat

def findFreeInode (fs : FileSystem) : Int × FileSystem :=
  findFree checkInodeStatus fs 0 fs.info.totalInodes.toNat

/-- One pass over the direct pointers of a directory: the count `notfound`, and
the block that matched. -/
def searchPtrs (fs : FileSystem) (node : Bytes) (searchFolder : List UInt8) :
    List Nat → Nat × Option Bytes
  | [] => (0, none)
  | j :: rest =>
      let pathBlock := fs.blockRead (Inode.directPtr node j)
      if Inode.directPtr node j ≠ 0 ∧ strcmpEqual pathBlock 0 searchFolder then
        (0, some pathBlock)
      else
        let (notfound, found) := fs.searchPtrs node searchFolder rest
        (notfound + 1, found)

/-- The loop of `find_path_block` over the remaining folders. -/
def searchFolders (fs : FileSystem) (blockReturn : Bytes) :
    List (List UInt8) → Bytes × FileSystem
  | [] => (blockReturn, fs)
  | searchFolder :: fldrs =>
      let (node, fs) := fs.getInode (FilepathBlock.inode blockReturn)
      match fs.searchPtrs node searchFolder (List.range 12) with
      | (notfound, found) =>
          if notfound = 12 then (blockReturn, fs)
          else
            match found with
            | some pathBlock => fs.searchFolders pathBlock fldrs
            | none => (blockReturn, fs)

def findPathBlock (fs : FileSystem) (path : List UInt8) : Bytes × FileSystem :=
  fs.searchFolders (fs.blockRead fs.info.dataregionBlocksStart) (parsePath path)

/-- `stale` is what the local `fblock` holds before it is assigned.  The result
is `none` where the code reads `fldrs[-1]` or the unassigned `ptr`, and where
`strcpy` overruns `fblock.filepath`, which has 508 bytes. -/
def create (fs : FileSystem) (stale : Bytes) (path : List UInt8) :
    Option (Int × FileSystem) := do
  let (block, fs) := fs.findPathBlock path
  let last ← (parsePath path).getLast?
  if strcmpEqual block 0 last then some (-1, fs)
  else
    let (newInodeNum, fs) := fs.findFreeInode
    let fs := fs.setInodeStatus newInodeNum 1
    let (newDataBlock, fs) := fs.findFreeDatablock
    let fs := fs.setDataregionStatus newDataBlock 1
    let fblock ←
      if last.length < 508 then some (FilepathBlock.make stale last newInodeNum)
      else none
    let (node, fs) := fs.getInode (FilepathBlock.inode block)
    let ptr ← (List.range 12).find? fun i => Inode.directPtr node i = 0
    let node :=
      Inode.setDirectPtr node ptr (fs.info.dataregionBlocksStart + newDataBlock)
    let fs := fs.setInode (FilepathBlock.inode block) node
    let fs :=
      fs.blockWrite (fs.info.dataregionBlocksStart + newDataBlock) fblock
    some (0, fs)

end FileSystem

structure SameDisk (fs next : FileSystem) : Prop where
  disk : next.disk = fs.disk
  info : next.info = fs.info

namespace SameDisk

theorem refl (fs : FileSystem) : SameDisk fs fs where
  disk := rfl
  info := rfl

theorem trans {first second third : FileSystem} (h : SameDisk first second)
    (h' : SameDisk second third) : SameDisk first third where
  disk := h'.disk.trans h.disk
  info := h'.info.trans h.info

theorem getInode (fs : FileSystem) (number : Int) :
    SameDisk fs (fs.getInode number).2 where
  disk := rfl
  info := rfl

theorem checkStatus (start : MetadataInfo → Int) (fs : FileSystem)
    (number : Int) : SameDisk fs (fs.checkStatus start number).2 where
  disk := rfl
  info := rfl

theorem findFree (start : MetadataInfo → Int) (n : Nat) :
    ∀ (fs : FileSystem) (i : Int),
      SameDisk fs
        (FileSystem.findFree (FileSystem.checkStatus start) fs i n).2 := by
  induction n with
  | zero => exact fun fs _ => refl fs
  | succ n ih =>
      intro fs i
      have hcheck := checkStatus start fs i
      simp only [FileSystem.findFree]
      split
      · exact hcheck
      · exact hcheck.trans (ih _ _)

theorem searchFolders (fldrs : List (List UInt8)) :
    ∀ (fs : FileSystem) (block : Bytes),
      SameDisk fs (fs.searchFolders block fldrs).2 := by
  induction fldrs with
  | nil => exact fun fs _ => refl fs
  | cons searchFolder fldrs ih =>
      intro fs block
      have hget := getInode fs (FilepathBlock.inode block)
      simp only [FileSystem.searchFolders]
      split
      · exact hget
      · split
        · exact hget.trans (ih _ _)
        · exact hget

end SameDisk

theorem writeBlocks_disk (block : Bytes) (n : Nat) :
    ∀ (fs : FileSystem) (count x : Int),
      (fs.writeBlocks count block n).disk x =
        if count ≤ x ∧ x < count + n then block else fs.disk x := by
  induction n with
  | zero =>
      intro fs count x
      exact (if_neg (by omega)).symm
  | succ n ih =>
      intro fs count x
      rw [FileSystem.writeBlocks, ih]
      change (if _ then block else Function.update fs.disk count block x) = _
      rcases Classical.em (x = count) with rfl | hne
      · rw [if_neg (by omega), Function.update_self, if_pos (by omega)]
      · rw [Function.update_of_ne hne]
        congr 1
        apply propext
        omega

theorem writeBlocks_same (block : Bytes) (n : Nat) :
    ∀ (fs : FileSystem) (count : Int),
      (fs.writeBlocks count block n).info = fs.info ∧
        (fs.writeBlocks count block n).buffer = fs.buffer := by
  induction n with
  | zero => exact fun _ _ => ⟨rfl, rfl⟩
  | succ n ih => exact fun fs count => ih (fs.blockWrite count block) (count + 1)

def HoldsName (block : Bytes) (k : Int) : List UInt8 → Prop
  | [] => block k = 0
  | c :: rest => block k = c ∧ HoldsName block (k + 1) rest

theorem strcmpEqual_iff {name : List UInt8} (hname : 0 ∉ name) (block : Bytes) :
    ∀ {k : Int} {string : List UInt8}, HoldsName block k name → 0 ∉ string →
      (strcmpEqual block k string = true ↔ string = name) := by
  induction name with
  | nil =>
      intro k string hholds hstring
      cases string with
      | nil =>
          rw [strcmpEqual, decide_eq_true_iff]
          exact iff_of_true hholds rfl
      | cons c rest =>
          have hc : c ≠ block k := by
            rw [show block k = 0 from hholds]
            rintro rfl
            exact hstring List.mem_cons_self
          simp [strcmpEqual, hc]
  | cons c rest ih =>
      intro k string hholds hstring
      obtain ⟨hc, hrest⟩ := hholds
      rw [List.mem_cons, not_or] at hname
      cases string with
      | nil =>
          have hne : ¬ block k = 0 := by
            rw [hc]
            exact fun hzero => hname.1 hzero.symm
          simp [strcmpEqual, hne]
      | cons d others =>
          rw [List.mem_cons, not_or] at hstring
          have hinner := ih hname.2 hrest hstring.2
          simp only [strcmpEqual, decide_eq_true_eq, List.cons.injEq, hc,
            hinner]

theorem strcpy_outside (name : List UInt8) :
    ∀ (block : Bytes) {k x : Int}, x < k ∨ k + name.length < x →
      strcpy block k name x = block x := by
  induction name with
  | nil =>
      intro block k x hx
      have hne : x ≠ k := by
        simp only [List.length_nil] at hx
        omega
      exact Function.update_of_ne hne _ _
  | cons c rest ih =>
      intro block k x hx
      rw [List.length_cons] at hx
      have hne : x ≠ k := by omega
      rw [strcpy, ih _ (by omega), Function.update_of_ne hne]

theorem strcpy_holds (name : List UInt8) :
    ∀ (block : Bytes) (k : Int), HoldsName (strcpy block k name) k name := by
  induction name with
  | nil => exact fun _ _ => Function.update_self _ _ _
  | cons c rest ih =>
      intro block k
      refine ⟨?_, ih _ _⟩
      rw [strcpy, strcpy_outside rest _ (by omega), Function.update_self]

theorem holdsName_congr {first second : Bytes} (name : List UInt8) :
    ∀ {k : Int}, (∀ x, k ≤ x → x ≤ k + name.length → first x = second x) →
      HoldsName second k name → HoldsName first k name := by
  induction name with
  | nil =>
      intro k hsame hholds
      exact (hsame k (by omega) (by simp)).trans hholds
  | cons c rest ih =>
      intro k hsame hholds
      rw [List.length_cons] at hsame
      refine ⟨(hsame k (by omega) (by omega)).trans hholds.1, ?_⟩
      exact ih (fun x hlow hhigh => hsame x (by omega) (by omega)) hholds.2

theorem ofInt_toInt {n : Int} (hlow : 0 ≤ n) (hhigh : n < 2 ^ 31) :
    (BitVec.ofInt 32 n).toInt = n := by
  rw [BitVec.toInt_ofInt]
  exact Int.bmod_eq_of_le (by omega) (by omega)

theorem make_holds (stale : Bytes) {name : List UInt8} {number : Int}
    (hname : name.length ≤ 507) (hlow : 0 ≤ number) (hhigh : number < 2 ^ 31) :
    HoldsName (FilepathBlock.make stale name number) 0 name ∧
      FilepathBlock.inode (FilepathBlock.make stale name number) = number := by
  constructor
  · refine holdsName_congr name (fun x hxlow hxhigh => ?_) (strcpy_holds name stale 0)
    exact Bytes.store_outside _ _ (by omega)
  · rw [FilepathBlock.inode, FilepathBlock.make, FilepathBlock.setInode,
      Bytes.load_store_same, ofInt_toInt hlow hhigh]

end RutgersOS.Sfs
