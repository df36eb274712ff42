import RutgersOS.Sfs.Layout
import RutgersOS.Sfs.NameTree

namespace RutgersOS.Sfs

open RutgersOS.Memory

structure Represents (fs : FileSystem) (tree : NameTree) : Prop where
  layout : Layout fs.info
  inode_range : ∀ entry ∈ tree.nodes,
    0 ≤ entry.inode ∧ entry.inode < fs.info.totalInodes
  block_range : ∀ entry ∈ tree.nodes,
    0 ≤ entry.block ∧ entry.block < fs.info.dataregionBlocks
  nul : ∀ entry ∈ tree.nodes, 0 ∉ entry.name
  name : ∀ entry ∈ tree.nodes,
    HoldsName (fs.entryBlock entry.block) 0 entry.name
  inode : ∀ entry ∈ tree.nodes,
    FilepathBlock.inode (fs.entryBlock entry.block) = entry.inode
  referenced : ∀ entry ∈ tree.entries, ∃ j, j < 12 ∧
    fs.ptr entry.parent j = fs.info.dataregionBlocksStart + entry.block
  pointer : ∀ n j, 0 ≤ n → n < fs.info.totalInodes → j < 12 → fs.ptr n j ≠ 0 →
    ∃ entry ∈ tree.entries, entry.parent = n ∧
      fs.ptr n j = fs.info.dataregionBlocksStart + entry.block
  once : ∀ n i j, 0 ≤ n → n < fs.info.totalInodes → i < 12 → j < 12 →
    fs.ptr n i ≠ 0 → fs.ptr n i = fs.ptr n j → i = j
  inodeBits : ∀ n, 0 ≤ n → n < bitsPerBlock * fs.info.inodeBitmapBlocks →
    (fs.inodeBit n = 1 ↔ n ∈ tree.nodes.map Entry.inode)
  dataBits : ∀ n, 0 ≤ n → n < bitsPerBlock * fs.info.dataregionBitmapBlocks →
    (fs.dataBit n = 1 ↔ n ∈ tree.nodes.map Entry.block)

namespace Represents

theorem congr {fs next : FileSystem} {tree : NameTree} (h : Represents fs tree)
    (hsame : SameDisk fs next) : Represents next tree := by
  obtain ⟨disk, buffer, entryBuffer, info⟩ := fs
  obtain ⟨disk', buffer', entryBuffer', info'⟩ := next
  obtain ⟨rfl, rfl⟩ := hsame
  exact ⟨h.layout, h.inode_range, h.block_range, h.nul, h.name, h.inode,
    h.referenced, h.pointer, h.once, h.inodeBits, h.dataBits⟩

section Entries

variable {fs : FileSystem} {tree : NameTree} (h : Represents fs tree)

include h

theorem parent_range {entry : Entry} (hmem : entry ∈ tree.entries) :
    0 ≤ entry.parent ∧ entry.parent < fs.info.totalInodes := by
  obtain ⟨parent, hparent, heq⟩ := NameTree.rooted_parent tree.rooted hmem
  rw [heq]
  exact h.inode_range parent hparent

theorem dataStart_pos : 1 ≤ fs.info.dataregionBlocksStart := by
  have hdata := h.layout.dataBits
  have hinode := h.layout.inodeBits
  have hinodes := h.layout.inodes
  have hsome := h.layout.someInode
  rw [h.layout.dataStart]
  have hfirst := h.layout.someData
  omega

theorem directPtr_entry {parent : Entry} (hparent : parent ∈ tree.nodes) {j : Nat}
    (hj : j < 12) (hptr : fs.ptr parent.inode j ≠ 0) :
    ∃ entry ∈ tree.entries, entry.parent = parent.inode ∧
      fs.disk (fs.ptr parent.inode j) = fs.entryBlock entry.block := by
  obtain ⟨hlow, hhigh⟩ := h.inode_range parent hparent
  obtain ⟨entry, hentry, hup, heq⟩ := h.pointer _ j hlow hhigh hj hptr
  refine ⟨entry, hentry, hup, ?_⟩
  rw [heq]
  rfl

theorem strcmp_entry {entry : Entry} (hentry : entry ∈ tree.nodes)
    {string : List UInt8} (hstring : 0 ∉ string) :
    strcmpEqual (fs.entryBlock entry.block) 0 string = true ↔
      string = entry.name :=
  strcmpEqual_iff (h.nul entry hentry) _ (h.name entry hentry) hstring

end Entries

end Represents

def Matches (fs : FileSystem) (node : Bytes) (name : List UInt8) (j : Nat) :
    Prop :=
  Inode.directPtr node j ≠ 0 ∧
    strcmpEqual (fs.blockRead (Inode.directPtr node j)) 0 name

theorem searchPtrs_none {fs : FileSystem} {node : Bytes} {name : List UInt8}
    {js : List Nat} (h : ∀ j ∈ js, ¬ Matches fs node name j) :
    fs.searchPtrs node name js = (js.length, none) := by
  induction js with
  | nil => rfl
  | cons j rest ih =>
      have hfirst := h j List.mem_cons_self
      have hrest := ih fun k hk => h k (List.mem_cons_of_mem _ hk)
      rw [FileSystem.searchPtrs, hrest]
      exact if_neg hfirst

theorem searchPtrs_some {fs : FileSystem} {node : Bytes} {name : List UInt8}
    {js : List Nat} (h : ∃ j ∈ js, Matches fs node name j) :
    ∃ j ∈ js, Matches fs node name j ∧
      (fs.searchPtrs node name js).1 < js.length ∧
      (fs.searchPtrs node name js).2 =
        some (fs.disk (Inode.directPtr node j)) := by
  induction js with
  | nil =>
      obtain ⟨j, hj, -⟩ := h
      cases hj
  | cons first rest ih =>
      rcases Classical.em (Matches fs node name first) with hfirst | hfirst
      · have heq : fs.searchPtrs node name (first :: rest) =
            (0, some (fs.blockRead (Inode.directPtr node first))) := if_pos hfirst
        refine ⟨first, List.mem_cons_self, hfirst, ?_, ?_⟩
        · rw [heq]
          exact Nat.succ_pos _
        · rw [heq]
          rfl
      · have hlater : ∃ j ∈ rest, Matches fs node name j := by
          obtain ⟨j, hj, hmatch⟩ := h
          rcases List.mem_cons.mp hj with rfl | hj
          · exact absurd hmatch hfirst
          · exact ⟨j, hj, hmatch⟩
        obtain ⟨j, hj, hmatch, hcount, hfound⟩ := ih hlater
        have heq : fs.searchPtrs node name (first :: rest) =
            ((fs.searchPtrs node name rest).1 + 1,
              (fs.searchPtrs node name rest).2) := if_neg hfirst
        refine ⟨j, List.mem_cons_of_mem _ hj, hmatch, ?_, ?_⟩
        · rw [heq]
          exact Nat.succ_lt_succ hcount
        · rw [heq]
          exact hfound

namespace Represents

section Lookup

variable {fs : FileSystem} {tree : NameTree} (h : Represents fs tree)

include h

theorem searchPtrs_child_none {parent : Entry} (hparent : parent ∈ tree.nodes)
    {name : List UInt8} (hname : 0 ∉ name)
    (hchild : tree.child parent.inode name = none) :
    fs.searchPtrs (inodeAt fs.disk fs.info.inodeBlocksStart parent.inode) name
      (List.range 12) = (12, none) := by
  apply searchPtrs_none
  rintro j hj ⟨hptr, hmatch⟩
  obtain ⟨entry, hentry, hup, hblock⟩ :=
    h.directPtr_entry hparent (List.mem_range.mp hj) hptr
  change strcmpEqual (fs.disk (fs.ptr parent.inode j)) 0 name = true at hmatch
  rw [hblock, h.strcmp_entry (NameTree.mem_nodes hentry) hname] at hmatch
  exact NameTree.child_eq_none hchild hentry hup hmatch.symm

theorem searchPtrs_child_some {parent entry : Entry}
    (hparent : parent ∈ tree.nodes) {name : List UInt8} (hname : 0 ∉ name)
    (hchild : tree.child parent.inode name = some entry) :
    (fs.searchPtrs (inodeAt fs.disk fs.info.inodeBlocksStart parent.inode) name
        (List.range 12)).1 ≠ 12 ∧
      (fs.searchPtrs (inodeAt fs.disk fs.info.inodeBlocksStart parent.inode) name
        (List.range 12)).2 = some (fs.entryBlock entry.block) := by
  obtain ⟨hentry, hup, hsame⟩ := NameTree.child_mem hchild
  have hpos := h.dataStart_pos
  have hrange := h.block_range entry (NameTree.mem_nodes hentry)
  -- the pointer to the entry matches, so the loop finds a match
  have hsome : ∃ j ∈ List.range 12,
      Matches fs (inodeAt fs.disk fs.info.inodeBlocksStart parent.inode) name
        j := by
    obtain ⟨j, hj, hptr⟩ := h.referenced entry hentry
    rw [hup] at hptr
    refine ⟨j, List.mem_range.mpr hj, ?_, ?_⟩
    · change fs.ptr parent.inode j ≠ 0
      omega
    · change strcmpEqual (fs.disk (fs.ptr parent.inode j)) 0 name = true
      rw [hptr]
      exact (h.strcmp_entry (NameTree.mem_nodes hentry) hname).mpr hsame.symm
  obtain ⟨j, hj, ⟨hptr, hmatch⟩, hcount, hfound⟩ := searchPtrs_some hsome
  obtain ⟨other, hother, hup', hblock⟩ :=
    h.directPtr_entry hparent (List.mem_range.mp hj) hptr
  change strcmpEqual (fs.disk (fs.ptr parent.inode j)) 0 name = true at hmatch
  rw [hblock, h.strcmp_entry (NameTree.mem_nodes hother) hname] at hmatch
  have hfirst := NameTree.child_eq_some hother
  rw [hup', ← hmatch, hchild] at hfirst
  obtain rfl := Option.some.inj hfirst
  refine ⟨?_, ?_⟩
  · rw [List.length_range] at hcount
    exact Nat.ne_of_lt hcount
  · rw [hfound]
    exact congrArg some hblock

end Lookup

/-- The loop over the folders walks the tree. -/
theorem searchFolders_locate {tree : NameTree} (names : List (List UInt8)) :
    ∀ {fs : FileSystem} {entry : Entry}, Represents fs tree →
      entry ∈ tree.nodes → (∀ name ∈ names, 0 ∉ name) →
      (fs.searchFolders (fs.entryBlock entry.block) names).1 =
        fs.entryBlock (tree.locateFrom entry names).block := by
  induction names with
  | nil => exact fun _ _ _ => rfl
  | cons name rest ih =>
      intro fs entry h hentry hnul
      have hname := hnul name List.mem_cons_self
      have hget : (fs.getInode
          (FilepathBlock.inode (fs.entryBlock entry.block))).1 =
          inodeAt fs.disk fs.info.inodeBlocksStart entry.inode := by
        rw [h.inode entry hentry]
        rfl
      have hsame := SameDisk.getInode fs
        (FilepathBlock.inode (fs.entryBlock entry.block))
      have hnext := h.congr hsame
      simp only [FileSystem.searchFolders, NameTree.locateFrom, hget]
      generalize (fs.getInode
        (FilepathBlock.inode (fs.entryBlock entry.block))).2 = next at hsame hnext
      have hblocks : ∀ b, next.entryBlock b = fs.entryBlock b := by
        intro b
        rw [FileSystem.entryBlock, FileSystem.entryBlock, hsame.disk, hsame.info]
      rw [← hsame.disk, ← hsame.info]
      cases hchild : tree.child entry.inode name with
      | none => rw [hnext.searchPtrs_child_none hentry hname hchild, if_pos rfl]
      | some child =>
          obtain ⟨hcount, hfound⟩ :=
            hnext.searchPtrs_child_some hentry hname hchild
          rw [if_neg hcount, hfound]
          have hrest := ih hnext (NameTree.mem_nodes (NameTree.child_mem hchild).1)
            fun other hother => hnul other (List.mem_cons_of_mem _ hother)
          rw [hrest, hblocks]

theorem findPathBlock_locate {fs : FileSystem} {tree : NameTree}
    (h : Represents fs tree) {path : List UInt8} (hpath : Absolute path) :
    (fs.findPathBlock path).1 =
      fs.entryBlock (tree.locate (parsePath path)).block := by
  have hroot : fs.blockRead fs.info.dataregionBlocksStart =
      fs.entryBlock Entry.root.block := by
    rw [FileSystem.entryBlock, FileSystem.blockRead, Entry.root, Int.add_zero]
  rw [FileSystem.findPathBlock, hroot]
  exact searchFolders_locate _ h tree.root_mem
    fun name hname => nul_not_mem_parsePath hpath hname

end Represents

inductive Leads (fs : FileSystem) : Int → List (List UInt8) → Int → Prop
  | here (n : Int) : Leads fs n [] n
  | into {n m : Int} {name : List UInt8} {rest : List (List UInt8)} {j : Nat}
      (hj : j < 12) (hptr : fs.ptr n j ≠ 0)
      (hname : HoldsName (fs.disk (fs.ptr n j)) 0 name)
      (hrest : Leads fs (FilepathBlock.inode (fs.disk (fs.ptr n j))) rest m) :
      Leads fs n (name :: rest) m

theorem holdsName_inj {block : Bytes} {first : List UInt8} :
    ∀ {second : List UInt8} {k : Int}, 0 ∉ first → 0 ∉ second →
      HoldsName block k first → HoldsName block k second → first = second := by
  intro second k hfirst hsecond hholds hholds'
  have hself := (strcmpEqual_iff hsecond block hholds' hsecond).mpr rfl
  exact ((strcmpEqual_iff hfirst block hholds hsecond).mp hself).symm

theorem Leads.resolve {fs : FileSystem} {tree : NameTree}
    (h : Represents fs tree) {n m : Int} {names : List (List UInt8)}
    (hleads : Leads fs n names m) :
    ∀ {entry : Entry}, entry ∈ tree.nodes → entry.inode = n →
      (∀ name ∈ names, 0 ∉ name) →
      ∃ reached, tree.resolveFrom entry names = some reached ∧
        reached.inode = m := by
  induction hleads with
  | here n => exact fun _ heq _ => ⟨_, rfl, heq⟩
  | @into n m name rest j hj hptr hname hrest ih =>
      intro entry hentry heq hnul
      subst heq
      obtain ⟨child, hchild, hup, hblock⟩ := h.directPtr_entry hentry hj hptr
      have hnode := NameTree.mem_nodes hchild
      rw [hblock] at hname ih
      have hsame := holdsName_inj (hnul name List.mem_cons_self)
        (h.nul child hnode) hname (h.name child hnode)
      obtain ⟨reached, hreached, hinode⟩ := ih hnode (h.inode child hnode).symm
        fun other hother => hnul other (List.mem_cons_of_mem _ hother)
      refine ⟨reached, ?_, hinode⟩
      rw [NameTree.resolveFrom, hsame, ← hup, NameTree.child_eq_some hchild,
        Option.bind_some]
      exact hreached

end RutgersOS.Sfs
