import Mathlib.Data.List.Perm.Subperm
import RutgersOS.Sfs.Existence

namespace RutgersOS.Sfs

open RutgersOS.Memory

/-- No inode, no data block, or no pointer of the directory is free. -/
def Exhausted (fs : FileSystem) (path : List UInt8) : Prop :=
  fs.findFreeInode.1 = -1 ∨ fs.findFreeDatablock.1 = -1 ∨
    ∃ n, Leads fs 0 (parsePath path).dropLast n ∧ ∀ j, j < 12 → fs.ptr n j ≠ 0

/-- The walk to a new path ends in its directory, which is called like the last
component but one. -/
theorem Represents.refuses_new_iff {fs : FileSystem} {tree : NameTree}
    (h : Represents fs tree) {path last : List UInt8} (hpath : Absolute path)
    (hlast : (parsePath path).getLast? = some last)
    (hnew : ¬ Resolves fs (parsePath path))
    (hparent : Resolves fs (parsePath path).dropLast) (stale : Bytes) :
    Refuses fs stale path ↔ last = (parsePath path).dropLast.getLast?.getD [] := by
  have hnul : ∀ name ∈ parsePath path, 0 ∉ name :=
    fun name => nul_not_mem_parsePath hpath
  obtain ⟨folders, other, heq⟩ := parsePath_concat hpath
  obtain rfl : last = other := by
    rw [heq, List.getLast?_concat] at hlast
    exact (Option.some.inj hlast).symm
  rw [heq, List.dropLast_concat] at hparent ⊢
  rw [h.resolves_iff fun name hname => hnul name (heq ▸ List.mem_append_left _ hname)]
    at hparent
  obtain ⟨parent, hreached⟩ := Option.ne_none_iff_exists'.mp hparent
  have hchild : tree.child parent.inode last = none := by
    have hnone := Classical.not_not.mp (mt (h.resolves_iff hnul).mpr hnew)
    rw [heq, NameTree.resolve_concat, hreached, Option.bind_some] at hnone
    exact hnone
  have hlocate : tree.locate (parsePath path) = parent := by
    rw [NameTree.locate, heq, NameTree.locateFrom_of_resolveFrom hreached]
    simp only [NameTree.locateFrom, hchild]
  rw [refuses_iff h hpath hlast, hlocate, NameTree.name_of_resolve hreached]

/-- No missing resource makes `create` return -1, on any disk: that is up to the name
where the search stops, after creations that had their resources the name of the
directory. -/
theorem create_exhausted_iff {fs : FileSystem} {path last : List UInt8}
    (hpath : Absolute path) (hlast : (parsePath path).getLast? = some last)
    (hnew : ¬ Resolves fs (parsePath path))
    (hparent : Resolves fs (parsePath path).dropLast) (_hfull : Exhausted fs path)
    (stale : Bytes) :
    (Refuses fs stale path ↔ strcmpEqual (fs.findPathBlock path).1 0 last = true) ∧
      ∀ totalSize, Covered totalSize → Reachable totalSize fs →
        (Refuses fs stale path ↔
          last = (parsePath path).dropLast.getLast?.getD []) := by
  refine ⟨refuses_iff_strcmp fs hlast stale, fun totalSize hcovered hfs => ?_⟩
  obtain ⟨tree, htree⟩ := hfs.represents hcovered
  exact htree.refuses_new_iff hpath hlast hnew hparent stale

def FileSystem.creates (fs : FileSystem) (stale : Bytes) :
    List (List UInt8) → Option FileSystem
  | [] => some fs
  | path :: paths => do
      let (result, next) ← fs.create stale path
      if result = 0 then next.creates stale paths else none

/-- The entries are files of the root directory, on a disk that has room for more. -/
structure Flat (totalSize : Int) (fs : FileSystem) (tree : NameTree)
    (names : List (List UInt8)) : Prop where
  reachable : Reachable totalSize fs
  represents : Represents fs tree
  inodes : 13 < fs.info.totalInodes
  blocks : 13 < fs.info.dataregionBlocks
  parents : ∀ entry ∈ tree.entries, entry.parent = 0
  names : tree.entries.map Entry.name = names

theorem exists_free {used : List Int} {bound : Int} (h : (used.length : Int) < bound) :
    ∃ n, 0 ≤ n ∧ n < bound ∧ n ∉ used := by
  refine Classical.byContradiction fun hnone => ?_
  have hsubset : (List.range (used.length + 1)).map Int.ofNat ⊆ used := by
    intro n hn
    obtain ⟨i, hi, rfl⟩ := List.mem_map.mp hn
    have hlt := List.mem_range.mp hi
    refine Classical.not_not.mp fun hfree => hnone ⟨Int.ofNat i, ?_, ?_, hfree⟩
    · exact Int.natCast_nonneg i
    · change (i : Int) < bound
      omega
  have hnodup : ((List.range (used.length + 1)).map Int.ofNat).Nodup :=
    List.nodup_range.map fun _ _ => Int.ofNat.inj
  have hlength := (List.subperm_of_subset hnodup hsubset).length_le
  rw [List.length_map, List.length_range] at hlength
  omega

theorem parsePath_letter {c : UInt8} (hslash : c ≠ slash) :
    parsePath [slash, c] = [[c]] := by
  simp [parsePath, slashIndices, pathStrings, hslash]

namespace Flat

variable {totalSize : Int} {fs : FileSystem} {tree : NameTree}
  {names : List (List UInt8)} (h : Flat totalSize fs tree names)

include h

theorem length_entries : tree.entries.length = names.length := by
  rw [← h.names, List.length_map]

theorem exists_pointer (hfew : names.length < 12) :
    ∃ j, j < 12 ∧ fs.ptr 0 j = 0 := by
  refine Classical.byContradiction fun hnone => ?_
  have hused : ∀ j, j < 12 → fs.ptr 0 j ≠ 0 := fun j hj hzero => hnone ⟨j, hj, hzero⟩
  have hroot := h.represents.inode_range _ tree.root_mem
  have hsubset : (List.range 12).map (fs.ptr 0) ⊆
      tree.entries.map fun entry => fs.info.dataregionBlocksStart + entry.block := by
    intro n hn
    obtain ⟨j, hj, rfl⟩ := List.mem_map.mp hn
    have hj := List.mem_range.mp hj
    obtain ⟨entry, hentry, -, heq⟩ :=
      h.represents.pointer 0 j hroot.1 hroot.2 hj (hused j hj)
    exact List.mem_map.mpr ⟨entry, hentry, heq.symm⟩
  have hnodup : ((List.range 12).map (fs.ptr 0)).Nodup := by
    refine List.Nodup.map_on ?_ List.nodup_range
    intro i hi j hj heq
    have hi := List.mem_range.mp hi
    exact h.represents.once 0 i j hroot.1 hroot.2 hi (List.mem_range.mp hj)
      (hused i hi) heq
  have hlength := (List.subperm_of_subset hnodup hsubset).length_le
  rw [List.length_map, List.length_map, List.length_range, h.length_entries] at hlength
  omega

/-- Different entries of the root have different pointers. -/
theorem pointers_used (hmany : 12 ≤ names.length) :
    ∀ j, j < 12 → fs.ptr 0 j ≠ 0 := by
  intro free hfree hzero
  have hblocks : (tree.entries.map fun entry =>
      fs.info.dataregionBlocksStart + entry.block).Nodup := by
    have hall := tree.blocks
    rw [List.map_cons, List.nodup_cons] at hall
    have hmap := hall.2.map (f := fun block => fs.info.dataregionBlocksStart + block)
      fun _ _ heq => Int.add_left_cancel heq
    rwa [List.map_map] at hmap
  have hsubset : (tree.entries.map fun entry =>
      fs.info.dataregionBlocksStart + entry.block) ⊆
        ((List.range 12).erase free).map (fs.ptr 0) := by
    intro n hn
    obtain ⟨entry, hentry, rfl⟩ := List.mem_map.mp hn
    obtain ⟨j, hj, hptr⟩ := h.represents.referenced entry hentry
    rw [h.parents entry hentry] at hptr
    have hpos := h.represents.dataStart_pos
    have hblock := (h.represents.block_range entry (NameTree.mem_nodes hentry)).1
    have hne : j ≠ free := by
      rintro rfl
      omega
    refine List.mem_map.mpr ⟨j, ?_, hptr⟩
    exact (List.mem_erase_of_ne hne).mpr (List.mem_range.mpr hj)
  have hlength := (List.subperm_of_subset hblocks hsubset).length_le
  rw [List.length_map, List.length_map,
    List.length_erase_of_mem (List.mem_range.mpr hfree), List.length_range,
    h.length_entries] at hlength
  omega

theorem allowed {c : UInt8} (hnul : c ≠ 0) (hslash : c ≠ slash)
    (hfew : names.length < 12) : Allowed fs [slash, c] := by
  have hparse := parsePath_letter hslash
  have hroom := h.exists_pointer hfew
  have hinodes := h.inodes
  have hblocks := h.blocks
  have hinodeBits := h.represents.layout.inodeBits
  have hdataBits := h.represents.layout.dataBits
  have hlength := h.length_entries
  have hshort : ∀ field : Entry → Int, ((tree.nodes.map field).length : Int) < 13 := by
    intro field
    rw [List.length_map, NameTree.nodes, List.length_cons]
    omega
  refine
    { absolute := ⟨rfl, by simp [slash, hnul.symm]⟩
      nonempty := ?_
      length := ?_
      parent := ?_
      inode := ?_
      block := ?_ }
  · rw [hparse]
    simp
  · rw [hparse]
    simp
  · rw [hparse]
    exact ⟨0, .here 0, hroom⟩
  · obtain ⟨n, hlow, hhigh, hfree⟩ := exists_free (hshort Entry.inode)
    refine ⟨n, hlow, by omega, ?_⟩
    cases statusBit_cases fs.disk fs.info.inodeBitmapStart hlow with
    | inl hzero => exact hzero
    | inr hone =>
        exact absurd ((h.represents.inodeBits n hlow (by rw [bitsPerBlock]; omega)).mp hone) hfree
  · obtain ⟨n, hlow, hhigh, hfree⟩ := exists_free (hshort Entry.block)
    refine ⟨n, hlow, by omega, ?_⟩
    cases statusBit_cases fs.disk fs.info.dataregionBitmapStart hlow with
    | inl hzero => exact hzero
    | inr hone =>
        exact absurd ((h.represents.dataBits n hlow (by rw [bitsPerBlock]; omega)).mp hone) hfree

theorem child_none {name : List UInt8} (hname : name ∉ names) (parent : Int) :
    tree.child parent name = none := by
  apply List.find?_eq_none.mpr
  intro entry hentry hmatch
  apply hname
  rw [← h.names]
  exact List.mem_map.mpr ⟨entry, hentry, (of_decide_eq_true hmatch).2⟩

theorem create {c : UInt8} (hnul : c ≠ 0) (hslash : c ≠ slash) (hname : [c] ∉ names)
    (hfew : names.length < 12) (stale : Bytes) :
    ∃ next after, fs.create stale [slash, c] = some (0, next) ∧
      Flat totalSize next after ([c] :: names) := by
  have hallowed := h.allowed hnul hslash hfew
  have hparse : parsePath [slash, c] = [] ++ [[c]] := parsePath_letter hslash
  have hchild : tree.child Entry.root.inode [c] = none := h.child_none hname _
  have hfound := h.represents.findPathBlock_locate hallowed.absolute
  have hlocate : tree.locate (parsePath [slash, c]) = Entry.root := by
    rw [hparse]
    simp only [NameTree.locate, List.nil_append, NameTree.locateFrom, hchild]
  rw [hlocate] at hfound
  have hroom := h.exists_pointer hfew
  obtain ⟨next, after, leaf, hcreate, hnext, hentries, hleaf, hup, -, -, -, hinfo⟩ :=
    h.represents.grow hparse rfl hchild hfound (by simp [hnul.symm])
      (by simp) (by simp [Entry.root]) hroom hallowed.inode hallowed.block stale
  refine ⟨next, after, hcreate, ?_⟩
  exact
    { reachable := .create stale h.reachable hallowed hcreate
      represents := hnext
      inodes := hinfo ▸ h.inodes
      blocks := hinfo ▸ h.blocks
      parents := by
        intro entry hentry
        rw [hentries] at hentry
        cases List.mem_cons.mp hentry with
        | inl heq => exact heq ▸ hup
        | inr hmem => exact h.parents entry hmem
      names := by rw [hentries, List.map_cons, hleaf, h.names] }

end Flat

theorem Flat.creates {totalSize : Int} (letters : List UInt8) (stale : Bytes) :
    ∀ {fs : FileSystem} {tree : NameTree} {names : List (List UInt8)},
      Flat totalSize fs tree names → letters.Nodup → 0 ∉ letters → slash ∉ letters →
        (∀ c ∈ letters, [c] ∉ names) → names.length + letters.length ≤ 12 →
          ∃ next after, fs.creates stale (letters.map fun c => [slash, c]) = some next ∧
            Flat totalSize next after ((letters.map fun c => [c]).reverse ++ names) := by
  induction letters with
  | nil => exact fun h _ _ _ _ _ => ⟨_, _, rfl, h⟩
  | cons c letters ih =>
      intro fs tree names h hnodup hnul hslash hfresh hfew
      rw [List.nodup_cons] at hnodup
      rw [List.mem_cons, not_or] at hnul hslash
      rw [List.length_cons] at hfew
      obtain ⟨mid, grown, hcreate, hmid⟩ := h.create (Ne.symm hnul.1) (Ne.symm hslash.1)
        (hfresh c List.mem_cons_self) (by omega) stale
      have hfresh' : ∀ d ∈ letters, [d] ∉ [c] :: names := by
        intro d hd hmem
        cases List.mem_cons.mp hmem with
        | inl heq =>
            obtain rfl := List.singleton_inj.mp heq
            exact hnodup.1 hd
        | inr hmem => exact hfresh d (List.mem_cons_of_mem _ hd) hmem
      obtain ⟨next, after, hrest, hnext⟩ := ih hmid hnodup.2 hnul.2 hslash.2 hfresh'
        (by rw [List.length_cons]; omega)
      refine ⟨next, after, ?_, ?_⟩
      · rw [List.map_cons, FileSystem.creates, hcreate]
        exact hrest
      · rw [List.map_cons, List.reverse_cons, List.append_assoc]
        exact hnext

def blankDisk : FileSystem :=
  FileSystem.sfsInit ⟨fun _ _ => 255, fun _ => 0, fun _ => 0, getMetadataInfo 0⟩ 8388608
    (fun _ => 7) (fun _ => 7) (fun _ => 7)

theorem blankDisk_covered : Covered 8388608 := by
  constructor <;> decide

theorem blankDisk_flat : Flat 8388608 blankDisk .empty [] := by
  have hinfo : blankDisk.info = getMetadataInfo 8388608 := sfsInit_info _ _ _ _ _
  exact
    { reachable := .init _ rfl _ _ _
      represents := represents_sfsInit rfl blankDisk_covered (fun _ => 7) (fun _ => 7) (fun _ => 7)
      inodes := by rw [hinfo]; decide
      blocks := by rw [hinfo]; decide
      parents := nofun
      names := rfl }

/-- `"/a"` to `"/l"` -/
def twelveFiles : List (List UInt8) :=
  [97, 98, 99, 100, 101, 102, 103, 104, 105, 106, 107, 108].map fun c => [47, c]

theorem blankDisk_filled : ∃ fs, blankDisk.creates (fun _ => 0) twelveFiles = some fs ∧
    Reachable 8388608 fs ∧ Exhausted fs [47, 109] ∧
      ¬ Resolves fs (parsePath [47, 109]) ∧ Resolves fs (parsePath [47, 109]).dropLast ∧
        ∃ tree, Represents fs tree := by
  obtain ⟨fs, tree, hcreates, hfs⟩ := Flat.creates
    [97, 98, 99, 100, 101, 102, 103, 104, 105, 106, 107, 108] (fun _ => 0) blankDisk_flat
    (by decide) (by decide) (by decide) (by simp) (by decide)
  refine ⟨fs, hcreates, hfs.reachable, ?_, ?_, ⟨0, .here 0⟩, tree, hfs.represents⟩
  · exact Or.inr (Or.inr ⟨0, .here 0, hfs.pointers_used (by decide)⟩)
  · rw [hfs.represents.resolves_iff (by decide)]
    refine fun hsome => hsome ?_
    change (tree.child 0 [109]).bind _ = none
    rw [hfs.child_none (by decide)]
    rfl

/-- A thirteenth file: `create` goes on without a pointer. -/
theorem create_exhausted_fails : ∃ fs,
    blankDisk.creates (fun _ => 0) twelveFiles = some fs ∧ Reachable 8388608 fs ∧
      Absolute [47, 109] ∧ ¬ Resolves fs (parsePath [47, 109]) ∧
        Resolves fs (parsePath [47, 109]).dropLast ∧ Exhausted fs [47, 109] ∧
          ¬ Refuses fs (fun _ => 0) [47, 109] := by
  obtain ⟨fs, hcreates, hreachable, hfull, hnew, hparent, tree, htree⟩ := blankDisk_filled
  refine ⟨fs, hcreates, hreachable, ⟨rfl, by decide⟩, hnew, hparent, hfull, ?_⟩
  rw [htree.refuses_new_iff ⟨rfl, by decide⟩ rfl hnew hparent]
  decide

theorem create_exhausted_iff_filled : ∃ fs, Reachable 8388608 fs ∧
    Exhausted fs [47, 109] ∧ ¬ Refuses fs (fun _ => 0) [47, 109] := by
  obtain ⟨fs, -, hreachable, hfull, hnew, hparent, -⟩ := blankDisk_filled
  have hiff := (create_exhausted_iff ⟨rfl, by decide⟩ rfl hnew hparent hfull
    (fun _ => 0)).2 8388608 blankDisk_covered hreachable
  refine ⟨fs, hreachable, hfull, ?_⟩
  rw [hiff]
  decide

end RutgersOS.Sfs
