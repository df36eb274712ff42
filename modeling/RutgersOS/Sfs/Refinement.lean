import RutgersOS.Sfs.Lookup

namespace RutgersOS.Sfs

open RutgersOS.Memory

theorem findFree_found (start : MetadataInfo → Int) (n : Nat) :
    ∀ (fs : FileSystem) (i : Int),
      (∃ k, i ≤ k ∧ k < i + n ∧ statusBit fs.disk (start fs.info) k = 0) →
      let found := (FileSystem.findFree (FileSystem.checkStatus start) fs i n).1
      i ≤ found ∧ found < i + n ∧
        statusBit fs.disk (start fs.info) found = 0 ∧
          ∀ m, i ≤ m → m < found → statusBit fs.disk (start fs.info) m ≠ 0 := by
  induction n with
  | zero =>
      rintro fs i ⟨k, hlow, hhigh, -⟩
      omega
  | succ n ih =>
      rintro fs i ⟨k, hlow, hhigh, hbit⟩
      simp only [FileSystem.findFree]
      split
      · next hfree =>
          exact ⟨Int.le_refl i, by omega, hfree, fun m hm hm' => by omega⟩
      · next hused =>
          have hne : k ≠ i := by
            rintro rfl
            exact hused hbit
          obtain ⟨hlow', hhigh', hbit', hleast⟩ := ih (fs.checkStatus start i).2
            (i + 1) ⟨k, by omega, by omega, hbit⟩
          refine ⟨by omega, by omega, hbit', ?_⟩
          intro m hm hm'
          rcases Int.lt_or_le i m with hlater | hfirst
          · exact hleast m hlater hm'
          · obtain rfl : m = i := by omega
            exact hused

theorem findFree_take (start : MetadataInfo → Int) (fs : FileSystem) {count : Int}
    (hfree : ∃ n, 0 ≤ n ∧ n < count ∧ statusBit fs.disk (start fs.info) n = 0) :
    ∃ found next, FileSystem.findFree (FileSystem.checkStatus start) fs 0
        count.toNat = (found, next) ∧ SameDisk fs next ∧
      0 ≤ found ∧ found < count ∧
        statusBit fs.disk (start fs.info) found = 0 ∧
          ∀ m, 0 ≤ m → m < found → statusBit fs.disk (start fs.info) m ≠ 0 := by
  obtain ⟨n, hlow, hhigh, hbit⟩ := hfree
  have hfound := findFree_found start count.toNat fs 0 ⟨n, hlow, by omega, hbit⟩
  obtain ⟨hlow', hhigh', hbit', hleast⟩ := hfound
  exact ⟨_, _, rfl, SameDisk.findFree start _ fs 0, hlow', by omega, hbit', hleast⟩

theorem directPtr_setDirectPtr (node : Bytes) {ptr : Int} (hlow : 0 ≤ ptr)
    (hhigh : ptr < 2 ^ 31) (i j : Nat) :
    Inode.directPtr (Inode.setDirectPtr node i ptr) j =
      if j = i then ptr else Inode.directPtr node j := by
  rw [Inode.directPtr, Inode.setDirectPtr]
  split
  · next heq => rw [heq, Bytes.load_store_same, ofInt_toInt hlow hhigh]
  · next hne =>
      rw [Bytes.load_store_disjoint _ _ (by simp only [Inode.direct]; omega)]
      rfl

theorem directPtr_header (node : Bytes) (size : Int) (flags : UInt8) {j : Nat}
    (hj : j < 12) :
    Inode.directPtr (Inode.setFlags (Inode.setSize node size) flags) j =
      Inode.directPtr node j := by
  apply congrArg BitVec.toInt
  apply Bytes.load_congr
  intro x hlow hhigh
  rw [Inode.direct] at hlow hhigh
  rw [Inode.setFlags, Function.update_of_ne (by omega),
    Function.update_of_ne (by omega)]
  exact Bytes.store_outside _ _ (by omega)

theorem directPtr_zero {node : Bytes} {j : Nat} (hj : j < 12)
    (hzero : ∀ x, 0 ≤ x → x < 62 → node x = 0) : Inode.directPtr node j = 0 := by
  have hload : node.load (Inode.direct j) = Bytes.load (fun _ => 0) (Inode.direct j) := by
    apply Bytes.load_congr
    intro x hlow hhigh
    rw [Inode.direct] at hlow hhigh
    exact hzero x (by omega) (by omega)
  rw [Inode.directPtr, hload, Bytes.load]
  decide

section Format

variable (fs : FileSystem) (totalSize : Int) (staleNode staleSblock : Bytes)

def formatted : FileSystem :=
  let info := getMetadataInfo totalSize
  let fs := { fs with info := info }
  let fs := fs.blockWrite 0 (superBlock staleSblock info)
  let fs := fs.writeBlocks 1 fs.buffer info.dataregionBitmapBlocks.toNat
  let fs :=
    fs.writeBlocks (1 + info.dataregionBitmapBlocks.toNat) fs.buffer
      info.inodeBitmapBlocks.toNat
  fs.writeBlocks
    (1 + info.dataregionBitmapBlocks.toNat + info.inodeBitmapBlocks.toNat)
    (inodeList (Inode.clear staleNode)) info.inodeBlocks.toNat

theorem formatted_info :
    (formatted fs totalSize staleNode staleSblock).info = getMetadataInfo totalSize := by
  simp only [formatted, writeBlocks_same]
  rfl

theorem sfsInit_info (staleFblock : Bytes) :
    (fs.sfsInit totalSize staleNode staleSblock staleFblock).info =
      getMetadataInfo totalSize :=
  formatted_info fs totalSize staleNode staleSblock

theorem formatted_disk (layout : Layout (getMetadataInfo totalSize)) {b : Int}
    (hlow : 1 ≤ b) (hhigh : b < (getMetadataInfo totalSize).dataregionBlocksStart) :
    (formatted fs totalSize staleNode staleSblock).disk b =
      if b < (getMetadataInfo totalSize).inodeBlocksStart then fs.buffer
      else inodeList (Inode.clear staleNode) := by
  have hinodes := layout.inodes
  have hsome := layout.someInode
  have hfirst := layout.someData
  have hdata := layout.dataBits
  have hinode := layout.inodeBits
  rw [layout.dataStart] at hhigh
  rw [layout.inodeStart]
  simp only [formatted, writeBlocks_disk, writeBlocks_same]
  split
  · rw [if_neg (by omega)]
  · split
    · rw [if_pos (by omega)]
      rfl
    · split
      · rw [if_pos (by omega)]
        rfl
      · omega

/-- Over the formatted regions `sfs_init` records the root directory. -/
theorem sfsInit_changes (layout : Layout (getMetadataInfo totalSize))
    (staleFblock : Bytes) :
    Changes (formatted fs totalSize staleNode staleSblock)
      (fs.sfsInit totalSize staleNode staleSblock staleFblock)
      (fun n bit => if n = 0 then 1 else bit) (fun n bit => if n = 0 then 1 else bit)
      (fun _ _ old => old)
      (fun b old => if b = 0 then FilepathBlock.make staleFblock [] 0 else old) := by
  have hinfo := formatted_info fs totalSize staleNode staleSblock
  have hsfsInit : fs.sfsInit totalSize staleNode staleSblock staleFblock =
      let fs := formatted fs totalSize staleNode staleSblock
      let node := Inode.setFlags (Inode.setSize (fs.getInode 0).1 (12 * blockSize)) 1
      let fs := (((fs.getInode 0).2.setInode 0 node).setInodeStatus 0
        1).setDataregionStatus 0 1
      fs.blockWrite (getMetadataInfo totalSize).dataregionBlocksStart
        (FilepathBlock.make staleFblock [] 0) := rfl
  rw [hsfsInit]
  generalize formatted fs totalSize staleNode staleSblock = base at hinfo
  rw [← hinfo] at layout
  dsimp only
  rw [← hinfo]
  have hinodes := layout.inodes
  have hsome := layout.someInode
  have hfirst := layout.someData
  have hnodePtr : ∀ j, j < 12 → Inode.directPtr (Inode.setFlags (Inode.setSize
      (base.getInode 0).1 (12 * blockSize)) 1) j = base.ptr 0 j :=
    fun j hj => directPtr_header _ _ _ hj
  generalize Inode.setFlags (Inode.setSize (base.getInode 0).1
    (12 * blockSize)) 1 = node at hnodePtr ⊢
  have hread := Changes.sameDisk (SameDisk.getInode base 0)
  generalize (base.getInode 0).2 = fs1 at hread ⊢
  have hchange := hread.trans (Changes.setInode (p := 0)
    (hread.layout layout) (Int.le_refl 0) (by rw [hread.info]; omega) node)
  generalize fs1.setInode 0 node = fs2 at hchange ⊢
  have hchange := hchange.trans (Changes.setInodeStatus (i := 0)
    (hchange.layout layout) (Int.le_refl 0) (by rw [hchange.info]; omega)
    (Or.inr rfl))
  generalize fs2.setInodeStatus 0 1 = fs3 at hchange ⊢
  have hchange := hchange.trans (Changes.setDataregionStatus (d := 0)
    (hchange.layout layout) (Int.le_refl 0) (by rw [hchange.info]; omega)
    (Or.inr rfl))
  generalize fs3.setDataregionStatus 0 1 = fs4 at hchange ⊢
  have hwrite := Changes.writeEntry (d := 0) (hchange.layout layout)
    (Int.le_refl 0) (FilepathBlock.make staleFblock [] 0)
  rw [Int.add_zero, hchange.info] at hwrite
  have hchange := hchange.trans hwrite
  refine
    { info := hchange.info
      inodeBit := hchange.inodeBit
      dataBit := hchange.dataBit
      ptr := ?_
      entryBlock := hchange.entryBlock }
  intro n j hlow hhigh hj
  rw [hchange.ptr n j hlow hhigh hj]
  split
  · next heq => rw [hnodePtr j hj, heq]
  · rfl

end Format

theorem inodeList_clear (stale : Bytes) (n : Int) {x : Int} (hlow : 0 ≤ x) (hhigh : x < 62) :
    inodeList (Inode.clear stale) (inodeOffset n + x) = 0 := by
  have hplace : (inodeOffset n + x) % 64 = x := by
    rw [inodeOffset]
    omega
  rw [inodeList, hplace]
  exact if_pos ⟨hlow, hhigh⟩

theorem blank_views {fs : FileSystem} (layout : Layout fs.info) {stale : Bytes}
    (hbitmaps : ∀ b, 1 ≤ b → b < fs.info.inodeBlocksStart → fs.disk b = fun _ => 0)
    (htable : ∀ b, fs.info.inodeBlocksStart ≤ b → b < fs.info.dataregionBlocksStart →
      fs.disk b = inodeList (Inode.clear stale)) :
    (∀ n, 0 ≤ n → n < bitsPerBlock * fs.info.inodeBitmapBlocks →
        fs.inodeBit n = 0) ∧
      (∀ n, 0 ≤ n → n < bitsPerBlock * fs.info.dataregionBitmapBlocks →
        fs.dataBit n = 0) ∧
      ∀ n j, 0 ≤ n → n < fs.info.totalInodes → j < 12 → fs.ptr n j = 0 := by
  have hinodes := layout.inodes
  have hsome := layout.someInode
  have hfirst := layout.someData
  have hdata := layout.dataBits
  have hinode := layout.inodeBits
  have hstart := layout.inodeStart
  have hbit : ∀ offset, testBit 0 offset = 0 := by
    intro offset
    simp [testBit]
  refine ⟨?_, ?_, ?_⟩
  · intro n hlow hhigh
    obtain ⟨hblock, hblock'⟩ := statusBlock_inode layout hlow hhigh
    rw [FileSystem.inodeBit, statusBit, hbitmaps _ (by omega) (by omega)]
    exact hbit _
  · intro n hlow hhigh
    obtain ⟨hblock, hblock'⟩ := statusBlock_data layout hlow hhigh
    rw [FileSystem.dataBit, statusBit, hbitmaps _ (by omega) (by omega)]
    exact hbit _
  · intro n j hlow hhigh hj
    obtain ⟨hblock, hblock'⟩ := inodeBlock_range layout hlow hhigh
    rw [FileSystem.ptr]
    apply directPtr_zero hj
    intro x hx hx'
    rw [inodeAt, htable _ (by omega) hblock']
    exact inodeList_clear stale n hx hx'

/-- `sfs_init` leaves a disk with the root directory alone. -/
theorem represents_sfsInit {fs : FileSystem} {totalSize : Int}
    (hbuffer : fs.buffer = fun _ => 0) (hcovered : Covered totalSize)
    (staleNode staleSblock staleFblock : Bytes) :
    Represents (fs.sfsInit totalSize staleNode staleSblock staleFblock) .empty := by
  have layout := hcovered.layout
  have hinfo := formatted_info fs totalSize staleNode staleSblock
  have hdisk := fun b => formatted_disk fs totalSize staleNode staleSblock layout (b := b)
  have hchange := sfsInit_changes fs totalSize staleNode staleSblock layout staleFblock
  generalize fs.sfsInit totalSize staleNode staleSblock staleFblock = next at hchange ⊢
  generalize formatted fs totalSize staleNode staleSblock = base at hinfo hdisk hchange
  rw [hbuffer, ← hinfo] at hdisk
  rw [← hinfo] at layout
  have hinodes := layout.inodes
  have hsome := layout.someInode
  have hfirst := layout.someData
  have hdata := layout.dataBits
  have hinode := layout.inodeBits
  have hstart := layout.inodeStart
  have hend := layout.dataStart
  obtain ⟨hinodeBit, hdataBit, hptr⟩ := blank_views layout
    (fun b hlow hhigh => (hdisk b hlow (by omega)).trans (if_pos hhigh))
    (fun b hlow hhigh => (hdisk b (by omega) hhigh).trans (if_neg (by omega)))
  have hempty : ([] : List UInt8).length ≤ 507 := Nat.zero_le 507
  obtain ⟨hname, hroot⟩ :=
    make_holds staleFblock hempty (Int.le_refl 0) (by decide)
  have hnodes : NameTree.empty.nodes = [Entry.root] := rfl
  have hptr' : ∀ n j, 0 ≤ n → n < next.info.totalInodes → j < 12 →
      next.ptr n j = 0 := by
    intro n j hlow hhigh hj
    rw [hchange.info] at hhigh
    rw [hchange.ptr n j hlow hhigh hj]
    exact hptr n j hlow hhigh hj
  have hblock : next.entryBlock Entry.root.block =
      FilepathBlock.make staleFblock [] 0 :=
    (hchange.entryBlock 0 (Int.le_refl 0)).trans (if_pos rfl)
  constructor
  case layout => exact hchange.layout layout
  case inode_range =>
    intro entry hentry
    obtain rfl := List.mem_singleton.mp hentry
    rw [hchange.info]
    exact ⟨Int.le_refl 0, by change 0 < _; omega⟩
  case block_range =>
    intro entry hentry
    obtain rfl := List.mem_singleton.mp hentry
    rw [hchange.info]
    exact ⟨Int.le_refl 0, by change 0 < _; omega⟩
  case nul =>
    intro entry hentry
    obtain rfl := List.mem_singleton.mp hentry
    exact List.not_mem_nil
  case name =>
    intro entry hentry
    obtain rfl := List.mem_singleton.mp hentry
    rw [hblock]
    exact hname
  case inode =>
    intro entry hentry
    obtain rfl := List.mem_singleton.mp hentry
    rw [hblock]
    exact hroot
  case referenced => exact nofun
  case pointer =>
    intro n j hlow hhigh hj hne
    exact absurd (hptr' n j hlow hhigh hj) hne
  case once =>
    intro n i j hlow hhigh hi _ hne
    exact absurd (hptr' n i hlow hhigh hi) hne
  case inodeBits =>
    intro n hlow hhigh
    rw [hchange.info] at hhigh
    rw [hchange.inodeBit n hlow hhigh, hinodeBit n hlow hhigh, hnodes]
    simp [Entry.root]
  case dataBits =>
    intro n hlow hhigh
    rw [hchange.info] at hhigh
    rw [hchange.dataBit n hlow hhigh, hdataBit n hlow hhigh, hnodes]
    simp [Entry.root]

theorem Represents.insert {fs next : FileSystem} {tree after : NameTree}
    {leaf parent : Entry} {j : Nat} {stale : Bytes} (h : Represents fs tree)
    (hentries : after.entries = leaf :: tree.entries)
    (hparent : parent ∈ tree.nodes) (hup : leaf.parent = parent.inode)
    (hj : j < 12) (hzero : fs.ptr parent.inode j = 0)
    (hinode : 0 ≤ leaf.inode ∧ leaf.inode < fs.info.totalInodes)
    (hblock : 0 ≤ leaf.block ∧ leaf.block < fs.info.dataregionBlocks)
    (hfree : leaf.block ∉ tree.nodes.map Entry.block)
    (hnul : 0 ∉ leaf.name) (hlength : leaf.name.length ≤ 507)
    (hchange : Changes fs next (fun n bit => if n = leaf.inode then 1 else bit)
      (fun n bit => if n = leaf.block then 1 else bit)
      (fun n k old =>
        if n = parent.inode ∧ k = j then
          fs.info.dataregionBlocksStart + leaf.block
        else old)
      (fun b old =>
        if b = leaf.block then FilepathBlock.make stale leaf.name leaf.inode
        else old)) : Represents next after := by
  have hmem : ∀ entry, entry ∈ after.nodes ↔ entry = leaf ∨ entry ∈ tree.nodes :=
    fun entry => NameTree.mem_nodes_insert hentries
  have hpos := h.dataStart_pos
  have hother : ∀ entry ∈ tree.nodes, entry.block ≠ leaf.block := by
    intro entry hentry heq
    exact hfree (heq ▸ List.mem_map_of_mem hentry)
  have hold : ∀ entry ∈ tree.nodes,
      next.entryBlock entry.block = fs.entryBlock entry.block := by
    intro entry hentry
    rw [hchange.entryBlock _ (h.block_range entry hentry).1]
    exact if_neg (hother entry hentry)
  have hnew : next.entryBlock leaf.block =
      FilepathBlock.make stale leaf.name leaf.inode := by
    rw [hchange.entryBlock _ hblock.1]
    exact if_pos rfl
  have hmade := make_holds stale hlength
    hinode.1 (Int.lt_trans hinode.2 h.layout.inodes_lt)
  have hparentRange := h.inode_range parent hparent
  constructor
  case layout => exact hchange.layout h.layout
  case inode_range =>
    intro entry hentry
    rw [hchange.info]
    rcases (hmem entry).mp hentry with rfl | hentry
    · exact hinode
    · exact h.inode_range entry hentry
  case block_range =>
    intro entry hentry
    rw [hchange.info]
    rcases (hmem entry).mp hentry with rfl | hentry
    · exact hblock
    · exact h.block_range entry hentry
  case nul =>
    intro entry hentry
    rcases (hmem entry).mp hentry with rfl | hentry
    · exact hnul
    · exact h.nul entry hentry
  case name =>
    intro entry hentry
    rcases (hmem entry).mp hentry with rfl | hentry
    · rw [hnew]
      exact hmade.1
    · rw [hold entry hentry]
      exact h.name entry hentry
  case inode =>
    intro entry hentry
    rcases (hmem entry).mp hentry with rfl | hentry
    · rw [hnew]
      exact hmade.2
    · rw [hold entry hentry]
      exact h.inode entry hentry
  case referenced =>
    intro entry hentry
    rw [hentries] at hentry
    rw [hchange.info]
    rcases List.mem_cons.mp hentry with rfl | hentry
    · refine ⟨j, hj, ?_⟩
      rw [hup, hchange.ptr _ j hparentRange.1 hparentRange.2 hj]
      exact if_pos ⟨rfl, rfl⟩
    · obtain ⟨i, hi, hptr⟩ := h.referenced entry hentry
      have hrange := h.parent_range hentry
      have hblock := (h.block_range entry (NameTree.mem_nodes hentry)).1
      refine ⟨i, hi, ?_⟩
      rw [hchange.ptr _ i hrange.1 hrange.2 hi, if_neg, hptr]
      rintro ⟨hsame, rfl⟩
      rw [hsame] at hptr
      omega
  case pointer =>
    intro n k hlow hhigh hk hne
    rw [hchange.info] at hhigh ⊢
    rw [hchange.ptr n k hlow hhigh hk] at hne ⊢
    rw [hentries]
    rcases Classical.em (n = parent.inode ∧ k = j) with hnew | hnew
    · refine ⟨leaf, List.mem_cons_self, hup.trans hnew.1.symm, ?_⟩
      exact if_pos hnew
    · rw [if_neg hnew] at hne ⊢
      obtain ⟨entry, hentry, heq⟩ := h.pointer n k hlow hhigh hk hne
      exact ⟨entry, List.mem_cons_of_mem _ hentry, heq⟩
  case once =>
    intro n i k hlow hhigh hi hk hne heq
    rw [hchange.info] at hhigh
    rw [hchange.ptr n i hlow hhigh hi] at hne heq
    rw [hchange.ptr n k hlow hhigh hk] at heq
    -- no older pointer leads to the block of the leaf
    have hfresh : ∀ l, l < 12 →
        fs.ptr n l ≠ fs.info.dataregionBlocksStart + leaf.block := by
      intro l hl hptr
      obtain ⟨entry, hentry, -, hptr'⟩ :=
        h.pointer n l hlow hhigh hl (by omega)
      exact hother entry (NameTree.mem_nodes hentry) (by omega)
    rcases Classical.em (n = parent.inode ∧ i = j) with hfirst | hfirst
    · rcases Classical.em (n = parent.inode ∧ k = j) with hsecond | hsecond
      · exact hfirst.2.trans hsecond.2.symm
      · rw [if_pos hfirst, if_neg hsecond] at heq
        exact absurd heq.symm (hfresh k hk)
    · rw [if_neg hfirst] at hne heq
      rcases Classical.em (n = parent.inode ∧ k = j) with hsecond | hsecond
      · rw [if_pos hsecond] at heq
        exact absurd heq (hfresh i hi)
      · rw [if_neg hsecond] at heq
        exact h.once n i k hlow hhigh hi hk hne heq
  case inodeBits =>
    intro n hlow hhigh
    rw [hchange.info] at hhigh
    rw [hchange.inodeBit n hlow hhigh, NameTree.mem_map_insert hentries]
    rcases Classical.em (n = leaf.inode) with heq | hne
    · rw [if_pos heq]
      exact iff_of_true rfl (Or.inl heq)
    · rw [if_neg hne, h.inodeBits n hlow hhigh]
      exact (or_iff_right hne).symm
  case dataBits =>
    intro n hlow hhigh
    rw [hchange.info] at hhigh
    rw [hchange.dataBit n hlow hhigh, NameTree.mem_map_insert hentries]
    rcases Classical.em (n = leaf.block) with heq | hne
    · rw [if_pos heq]
      exact iff_of_true rfl (Or.inl heq)
    · rw [if_neg hne, h.dataBits n hlow hhigh]
      exact (or_iff_right hne).symm

/-- The calls that `create` is promised to get: the directory has room for a
pointer, and the bitmaps have a free inode and a free data block. -/
structure Allowed (fs : FileSystem) (path : List UInt8) : Prop where
  absolute : Absolute path
  nonempty : ∀ name ∈ parsePath path, name ≠ []
  length : ∀ name ∈ parsePath path, name.length ≤ 507
  parent : ∃ n, Leads fs 0 (parsePath path).dropLast n ∧
    ∃ j, j < 12 ∧ fs.ptr n j = 0
  inode : ∃ n, 0 ≤ n ∧ n < fs.info.totalInodes ∧ fs.inodeBit n = 0
  block : ∃ n, 0 ≤ n ∧ n < fs.info.dataregionBlocks ∧ fs.dataBit n = 0

theorem create_found {fs fs1 : FileSystem} (stale : Bytes)
    {path : List UInt8} {block : Bytes} {last : List UInt8}
    (hfind : fs.findPathBlock path = (block, fs1))
    (hlast : (parsePath path).getLast? = some last)
    (hname : strcmpEqual block 0 last = false) {i d : Int} {fs2 fs4 fs6 : FileSystem}
    {node : Bytes} {j : Nat} (hinode : fs1.findFreeInode = (i, fs2))
    (hblock : (fs2.setInodeStatus i 1).findFreeDatablock = (d, fs4))
    (hget : (fs4.setDataregionStatus d 1).getInode (FilepathBlock.inode block) =
      (node, fs6))
    (hptr : (List.range 12).find? (fun k => Inode.directPtr node k = 0) = some j)
    (hlength : last.length < 508) :
    fs.create stale path =
      let fs7 := fs6.setInode (FilepathBlock.inode block)
        (Inode.setDirectPtr node j (fs6.info.dataregionBlocksStart + d))
      some (0, fs7.blockWrite (fs7.info.dataregionBlocksStart + d)
        (FilepathBlock.make stale last i)) := by
  simp only [FileSystem.create, hfind, hlast, hname, hinode, hblock, hget, hptr,
    if_pos hlength, Option.bind_eq_bind, Option.bind_some]
  rfl

section Create

variable {fs : FileSystem} {tree : NameTree} {path last : List UInt8}
  (h : Represents fs tree) (hlast : (parsePath path).getLast? = some last)

include h hlast

theorem create_exists {entry : Entry} (hentry : entry ∈ tree.nodes)
    (hnul : 0 ∉ last) (hfound : (fs.findPathBlock path).1 = fs.entryBlock entry.block)
    (hname : last = entry.name) (stale : Bytes) :
    fs.create stale path = some (-1, (fs.findPathBlock path).2) := by
  have hequal : strcmpEqual (fs.findPathBlock path).1 0 last = true := by
    rw [hfound]
    exact (h.strcmp_entry hentry hnul).mpr hname
  simp only [FileSystem.create, hlast, Option.bind_eq_bind, Option.bind_some,
    hequal, if_true]

/-- A `create` of a new name updates each of the four views at one place. -/
theorem create_changes {parent : Entry} (hparent : parent ∈ tree.nodes)
    (hnul : 0 ∉ last) (hlength : last.length < 508)
    (hfound : (fs.findPathBlock path).1 = fs.entryBlock parent.block)
    (hname : last ≠ parent.name)
    (hroom : ∃ j, j < 12 ∧ fs.ptr parent.inode j = 0)
    (hfreeInode : ∃ n, 0 ≤ n ∧ n < fs.info.totalInodes ∧ fs.inodeBit n = 0)
    (hfreeBlock : ∃ n, 0 ≤ n ∧ n < fs.info.dataregionBlocks ∧ fs.dataBit n = 0)
    (stale : Bytes) :
    ∃ next i d j, fs.create stale path = some (0, next) ∧
      0 ≤ i ∧ i < fs.info.totalInodes ∧ fs.inodeBit i = 0 ∧
      0 ≤ d ∧ d < fs.info.dataregionBlocks ∧ fs.dataBit d = 0 ∧
      j < 12 ∧ fs.ptr parent.inode j = 0 ∧
      (∀ n, 0 ≤ n → n < i → fs.inodeBit n ≠ 0) ∧
      (∀ n, 0 ≤ n → n < d → fs.dataBit n ≠ 0) ∧
      (∀ k, k < j → fs.ptr parent.inode k ≠ 0) ∧
      Changes fs next (fun n bit => if n = i then 1 else bit)
        (fun n bit => if n = d then 1 else bit)
        (fun n k old =>
          if n = parent.inode ∧ k = j then fs.info.dataregionBlocksStart + d
          else old)
        (fun b old => if b = d then FilepathBlock.make stale last i else old) := by
  have layout := h.layout
  have hparentRange := h.inode_range parent hparent
  obtain ⟨block, hblock⟩ : ∃ block, (fs.findPathBlock path).1 = block := ⟨_, rfl⟩
  obtain ⟨fs1, hfs1⟩ : ∃ fs1, (fs.findPathBlock path).2 = fs1 := ⟨_, rfl⟩
  have hfind : fs.findPathBlock path = (block, fs1) := Prod.ext hblock hfs1
  have hsearch : SameDisk fs (fs.findPathBlock path).2 :=
    SameDisk.searchFolders _ _ _
  rw [hfs1] at hsearch
  rw [hblock] at hfound
  have hdifferent : strcmpEqual block 0 last = false := by
    rw [hfound, Bool.eq_false_iff]
    exact fun hequal => hname ((h.strcmp_entry hparent hnul).mp hequal)
  have hnumber : FilepathBlock.inode block = parent.inode := by
    rw [hfound]
    exact h.inode parent hparent
  have hinodeBits := layout.inodeBits
  have hdataBits := layout.dataBits
  -- the inode
  have hchange := Changes.sameDisk hsearch
  have hfreeInode : ∃ n, 0 ≤ n ∧ n < fs1.info.totalInodes ∧ fs1.inodeBit n = 0 := by
    obtain ⟨n, hlow, hhigh, hbit⟩ := hfreeInode
    rw [hchange.info]
    exact ⟨n, hlow, hhigh, (hchange.inodeBit n hlow (by omega)).trans hbit⟩
  obtain ⟨i, fs2, hinode, hsame, hilow, hihigh, hibit, hileast⟩ :=
    findFree_take MetadataInfo.inodeBitmapStart fs1 hfreeInode
  rw [hchange.info] at hihigh
  have hibit := (hchange.inodeBit i hilow (by omega)).symm.trans hibit
  have hileast : ∀ n, 0 ≤ n → n < i → fs.inodeBit n ≠ 0 := fun n hn hn' =>
    ne_of_eq_of_ne (hchange.inodeBit n hn (by omega)).symm (hileast n hn hn')
  have hchange := hchange.trans (Changes.sameDisk hsame)
  have hchange := hchange.trans (Changes.setInodeStatus (i := i)
    (hchange.layout layout) hilow (by rwa [hchange.info]) (Or.inr rfl))
  generalize hfs3 : fs2.setInodeStatus i 1 = fs3 at hchange
  -- the data block
  have hfreeBlock : ∃ n, 0 ≤ n ∧ n < fs3.info.dataregionBlocks ∧
      fs3.dataBit n = 0 := by
    obtain ⟨n, hlow, hhigh, hbit⟩ := hfreeBlock
    rw [hchange.info]
    exact ⟨n, hlow, hhigh, (hchange.dataBit n hlow (by omega)).trans hbit⟩
  obtain ⟨d, fs4, hdata, hsame, hdlow, hdhigh, hdbit, hdleast⟩ :=
    findFree_take MetadataInfo.dataregionBitmapStart fs3 hfreeBlock
  rw [hchange.info] at hdhigh
  have hdbit := (hchange.dataBit d hdlow (by omega)).symm.trans hdbit
  have hdleast : ∀ n, 0 ≤ n → n < d → fs.dataBit n ≠ 0 := fun n hn hn' =>
    ne_of_eq_of_ne (hchange.dataBit n hn (by omega)).symm (hdleast n hn hn')
  have hchange := hchange.trans (Changes.sameDisk hsame)
  have hchange := hchange.trans (Changes.setDataregionStatus (d := d)
    (hchange.layout layout) hdlow (by rwa [hchange.info]) (Or.inr rfl))
  generalize hfs5 : fs4.setDataregionStatus d 1 = fs5 at hchange
  -- the pointer of the parent
  obtain ⟨node, hnode⟩ : ∃ node, (fs5.getInode (FilepathBlock.inode block)).1 =
      node := ⟨_, rfl⟩
  obtain ⟨fs6, hfs6⟩ : ∃ fs6, (fs5.getInode (FilepathBlock.inode block)).2 = fs6 :=
    ⟨_, rfl⟩
  have hget : fs5.getInode (FilepathBlock.inode block) = (node, fs6) :=
    Prod.ext hnode hfs6
  have hold : ∀ k, k < 12 → Inode.directPtr node k = fs.ptr parent.inode k := by
    intro k hk
    rw [← hnode, hnumber]
    exact hchange.ptr parent.inode k hparentRange.1 hparentRange.2 hk
  have hread : SameDisk fs5 (fs5.getInode (FilepathBlock.inode block)).2 :=
    SameDisk.getInode _ _
  rw [hfs6] at hread
  have hchange := hchange.trans (Changes.sameDisk hread)
  obtain ⟨j, hptr⟩ : ∃ j,
      (List.range 12).find? (fun k => Inode.directPtr node k = 0) = some j := by
    obtain ⟨k, hk, hzero⟩ := hroom
    rw [← Option.isSome_iff_exists, List.find?_isSome]
    exact ⟨k, List.mem_range.mpr hk, by simp [hold k hk, hzero]⟩
  have hj : j < 12 := List.mem_range.mp (List.mem_of_find?_eq_some hptr)
  have hzero : fs.ptr parent.inode j = 0 := by
    rw [← hold j hj]
    simpa using List.find?_some hptr
  have hjleast : ∀ k, k < j → fs.ptr parent.inode k ≠ 0 := by
    intro k hk
    rw [← hold k (by omega)]
    simpa using (List.find?_range_eq_some.mp hptr).2.2 k hk
  have hcreate := create_found stale hfind hlast hdifferent hinode
    (hfs3 ▸ hdata) (hfs5 ▸ hget) hptr hlength
  dsimp only at hcreate
  rw [hnumber, hchange.info] at hcreate
  have hchange := hchange.trans (Changes.setInode (p := parent.inode)
    (hchange.layout layout) hparentRange.1 (by rw [hchange.info]; exact hparentRange.2)
    (Inode.setDirectPtr node j (fs.info.dataregionBlocksStart + d)))
  generalize fs6.setInode parent.inode
    (Inode.setDirectPtr node j (fs.info.dataregionBlocksStart + d)) = fs7
    at hcreate hchange
  have hchange := hchange.trans (Changes.writeEntry (d := d)
    (hchange.layout layout) hdlow (FilepathBlock.make stale last i))
  refine ⟨_, i, d, j, hcreate, hilow, hihigh, hibit, hdlow, hdhigh, hdbit, hj,
    hzero, hileast, hdleast, hjleast, ?_⟩
  refine
    { info := hchange.info
      inodeBit := hchange.inodeBit
      dataBit := hchange.dataBit
      ptr := ?_
      entryBlock := hchange.entryBlock }
  intro n k hlow hhigh hk
  rw [hchange.ptr n k hlow hhigh hk]
  have hpos := h.dataStart_pos
  have hlimit := layout.data_lt
  rcases Classical.em (n = parent.inode) with rfl | hne
  · rw [if_pos rfl, directPtr_setDirectPtr node (by omega) (by omega), hold k hk]
    simp only [true_and]
  · rw [if_neg hne, if_neg fun hboth => hne hboth.1]

end Create

inductive Reachable (totalSize : Int) : FileSystem → Prop
  | init (fs : FileSystem) (hbuffer : fs.buffer = fun _ => 0)
      (staleNode staleSblock staleFblock : Bytes) :
      Reachable totalSize (fs.sfsInit totalSize staleNode staleSblock staleFblock)
  | create {fs next : FileSystem} {path : List UInt8} {result : Int}
      (stale : Bytes) (hfs : Reachable totalSize fs) (hallowed : Allowed fs path)
      (hcreate : fs.create stale path = some (result, next)) :
      Reachable totalSize next

/-- What a `create` returns, and the disk and the tree that it leaves. -/
inductive Created (fs : FileSystem) (tree : NameTree) (path : List UInt8) :
    Int → FileSystem → Prop
  | kept {next : FileSystem} (hsame : SameDisk fs next)
      (hnext : Represents next tree) : Created fs tree path (-1) next
  | grown {next : FileSystem} {after : NameTree} {leaf parent : Entry}
      {folders : List (List UInt8)} (hnext : Represents next after)
      (hentries : after.entries = leaf :: tree.entries)
      (hpath : parsePath path = folders ++ [leaf.name])
      (hparent : tree.resolve folders = some parent)
      (hup : leaf.parent = parent.inode)
      (hinode : leaf.inode ∉ tree.nodes.map Entry.inode)
      (hblock : leaf.block ∉ tree.nodes.map Entry.block)
      (hresolve : ∀ names, after.resolve names =
        if names = parsePath path then some leaf else tree.resolve names) :
      Created fs tree path 0 next

theorem Created.represents {fs next : FileSystem} {tree : NameTree}
    {path : List UInt8} {result : Int} (h : Created fs tree path result next) :
    ∃ after, Represents next after := by
  cases h with
  | kept _ hnext => exact ⟨_, hnext⟩
  | grown hnext => exact ⟨_, hnext⟩

/-- A new leaf under the directory where the search stopped. -/
theorem Represents.grow {fs : FileSystem} {tree : NameTree} (h : Represents fs tree)
    {path last : List UInt8} {folders : List (List UInt8)} {parent : Entry}
    (hpath : parsePath path = folders ++ [last])
    (hparent : tree.resolve folders = some parent)
    (hchild : tree.child parent.inode last = none)
    (hfound : (fs.findPathBlock path).1 = fs.entryBlock parent.block)
    (hnul : 0 ∉ last) (hlength : last.length < 508) (hname : last ≠ parent.name)
    (hroom : ∃ j, j < 12 ∧ fs.ptr parent.inode j = 0)
    (hfreeInode : ∃ n, 0 ≤ n ∧ n < fs.info.totalInodes ∧ fs.inodeBit n = 0)
    (hfreeBlock : ∃ n, 0 ≤ n ∧ n < fs.info.dataregionBlocks ∧ fs.dataBit n = 0)
    (stale : Bytes) :
    ∃ next after leaf, fs.create stale path = some (0, next) ∧
      Represents next after ∧ after.entries = leaf :: tree.entries ∧
      leaf.name = last ∧ leaf.parent = parent.inode ∧
      leaf.inode ∉ tree.nodes.map Entry.inode ∧
      leaf.block ∉ tree.nodes.map Entry.block ∧
      (∀ names, after.resolve names =
        if names = parsePath path then some leaf else tree.resolve names) ∧
      next.info = fs.info := by
  have hnode := NameTree.resolve_mem hparent
  have hlast : (parsePath path).getLast? = some last := by
    rw [hpath, List.getLast?_concat]
  obtain ⟨next, i, d, j, hcreate, hilow, hihigh, hibit, hdlow, hdhigh, hdbit, hj, hzero,
    -, -, -, hchange⟩ := create_changes h hlast hnode hnul hlength hfound hname hroom
      hfreeInode hfreeBlock stale
  have hbitmap := h.layout.inodeBits
  have hbitmap' := h.layout.dataBits
  have hinode : i ∉ tree.nodes.map Entry.inode := by
    rw [← h.inodeBits i hilow (by rw [bitsPerBlock]; omega), hibit]
    decide
  have hblock : d ∉ tree.nodes.map Entry.block := by
    rw [← h.dataBits d hdlow (by rw [bitsPerBlock]; omega), hdbit]
    decide
  let leaf : Entry := { inode := i, block := d, parent := parent.inode, name := last }
  let after := tree.insert leaf ⟨parent, hnode, rfl⟩ hinode hblock hchild
  have hnext : Represents next after :=
    h.insert rfl hnode rfl hj hzero ⟨hilow, hihigh⟩ ⟨hdlow, hdhigh⟩ hblock hnul
      (Nat.le_of_lt_succ hlength) hchange
  refine ⟨next, after, leaf, hcreate, hnext, rfl, rfl, rfl, hinode, hblock, ?_,
    hchange.info⟩
  intro names
  rw [hpath]
  exact NameTree.resolve_insert (rfl : after.entries = leaf :: tree.entries) hparent rfl
    hchild hinode names

theorem Represents.create {fs : FileSystem} {tree : NameTree}
    (h : Represents fs tree) {path : List UInt8} (hallowed : Allowed fs path)
    (stale : Bytes) :
    ∃ result next, fs.create stale path = some (result, next) ∧
      Created fs tree path result next := by
  obtain ⟨folders, last, hpath⟩ : ∃ folders last,
      parsePath path = folders ++ [last] := by
    rcases List.eq_nil_or_concat (parsePath path) with hnil | ⟨folders, last, heq⟩
    · exact absurd hnil (parsePath_ne_nil hallowed.absolute)
    · exact ⟨folders, last, heq.trans List.concat_eq_append⟩
  have hnul : ∀ name ∈ parsePath path, 0 ∉ name :=
    fun name => nul_not_mem_parsePath hallowed.absolute
  have hmem : last ∈ parsePath path := by
    rw [hpath]
    exact List.mem_append_right _ List.mem_cons_self
  have hlast : (parsePath path).getLast? = some last := by
    rw [hpath, List.getLast?_concat]
  -- the directory that the path names
  obtain ⟨n, hleads, hroom⟩ := hallowed.parent
  rw [hpath, List.dropLast_concat] at hleads
  obtain ⟨parent, hparent, hnumber⟩ := hleads.resolve h tree.root_mem rfl
    fun name hname => hnul name (hpath ▸ List.mem_append_left _ hname)
  subst hnumber
  have hnode := NameTree.resolve_mem hparent
  have hlocate : tree.locate (parsePath path) = tree.locateFrom parent [last] := by
    rw [NameTree.locate, hpath]
    exact NameTree.locateFrom_of_resolveFrom hparent [last]
  have hfound := h.findPathBlock_locate hallowed.absolute
  rw [hlocate] at hfound
  have hkept : SameDisk fs (fs.findPathBlock path).2 :=
    SameDisk.searchFolders _ _ _
  cases hchild : tree.child parent.inode last with
  | some entry =>
      obtain ⟨hentry, -, hname⟩ := NameTree.child_mem hchild
      simp only [NameTree.locateFrom, hchild] at hfound
      exact ⟨_, _, create_exists h hlast (NameTree.mem_nodes hentry)
        (hnul last hmem) hfound hname.symm stale, .kept hkept (h.congr hkept)⟩
  | none =>
      simp only [NameTree.locateFrom, hchild] at hfound
      rcases Classical.em (last = parent.name) with hname | hname
      · -- the name of the directory itself counts as taken
        exact ⟨_, _, create_exists h hlast hnode (hnul last hmem) hfound hname
          stale, .kept hkept (h.congr hkept)⟩
      · have hlength := Nat.lt_succ_of_le (hallowed.length last hmem)
        obtain ⟨next, after, leaf, hcreate, hnext, hentries, rfl, hup, hinode, hblock,
          hresolve, -⟩ := h.grow hpath hparent hchild hfound (hnul last hmem) hlength hname
            hroom hallowed.inode hallowed.block stale
        exact ⟨0, next, hcreate,
          .grown hnext hentries hpath hparent hup hinode hblock hresolve⟩

theorem Reachable.represents {totalSize : Int} (hcovered : Covered totalSize)
    {fs : FileSystem} (hfs : Reachable totalSize fs) :
    ∃ tree, Represents fs tree := by
  induction hfs with
  | init fs hbuffer staleNode staleSblock staleFblock =>
      exact ⟨_, represents_sfsInit hbuffer hcovered staleNode staleSblock staleFblock⟩
  | @create fs next path result stale hfs hallowed hcreate ih =>
      obtain ⟨tree, htree⟩ := ih
      obtain ⟨result', next', hcreate', hcreated⟩ := htree.create hallowed stale
      rw [hcreate] at hcreate'
      obtain ⟨rfl, rfl⟩ := Prod.mk.inj (Option.some.inj hcreate')
      exact hcreated.represents

/-- Every reachable disk stands for a tree that lookups walk and that creations
grow leaf by leaf. -/
theorem name_space_refines_tree {totalSize : Int} (hcovered : Covered totalSize)
    {fs : FileSystem} (hfs : Reachable totalSize fs) :
    ∃ tree, Represents fs tree ∧
      (∀ path, Absolute path → ∃ entry,
        tree.IsLongestPrefix (parsePath path) entry ∧
          (fs.findPathBlock path).1 = fs.entryBlock entry.block) ∧
      ∀ stale path, Allowed fs path → ∃ result next,
        fs.create stale path = some (result, next) ∧
          Created fs tree path result next := by
  obtain ⟨tree, htree⟩ := hfs.represents hcovered
  refine ⟨tree, htree, ?_, ?_⟩
  · intro path hpath
    exact ⟨_, tree.locate_isLongestPrefix _, htree.findPathBlock_locate hpath⟩
  · intro stale path hallowed
    exact htree.create hallowed stale

end RutgersOS.Sfs
