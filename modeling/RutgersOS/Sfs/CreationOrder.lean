import RutgersOS.Sfs.Exhaustion

namespace RutgersOS.Sfs

open RutgersOS.Memory

/-! The searches of `create` take the first free inode, data block and pointer,
and nothing is ever given back.  So the metadata follow from the order of the
calls alone. -/

def Numbered (field : Entry → Int) : List Entry → Prop
  | [] => True
  | entry :: older => field entry = older.length + 1 ∧ Numbered field older

def listing (entries : List Entry) (n : Int) : List Entry :=
  (entries.filter fun entry => entry.parent = n).reverse

def slot (start : Int) (entries : List Entry) (j : Nat) : Int :=
  (entries[j]?).elim 0 fun entry => start + entry.block

structure Ordered (fs : FileSystem) (tree : NameTree) : Prop where
  represents : Represents fs tree
  inodes : Numbered Entry.inode tree.entries
  blocks : Numbered Entry.block tree.entries
  pointers : ∀ n j, 0 ≤ n → n < fs.info.totalInodes → j < 12 →
    fs.ptr n j = slot fs.info.dataregionBlocksStart (listing tree.entries n) j
  few : ∀ n, (listing tree.entries n).length ≤ 12

/-- The calls on trees: a taken name is refused, another becomes the next entry. -/
def NameTree.add (tree : NameTree) (path : List UInt8) : Int × List Entry :=
  let directory := tree.locate (parsePath path)
  let last := (parsePath path).getLast?.getD []
  if last = directory.name then (-1, tree.entries)
  else
    let number : Int := tree.entries.length + 1
    (0, { inode := number, block := number, parent := directory.inode, name := last } ::
      tree.entries)

theorem Numbered.mem_map_iff {field : Entry → Int} {entries : List Entry}
    (h : Numbered field entries) (hroot : field .root = 0) (n : Int) :
    n ∈ (Entry.root :: entries).map field ↔ 0 ≤ n ∧ n ≤ entries.length := by
  induction entries with
  | nil =>
      rw [List.map_singleton, List.mem_singleton, hroot, List.length_nil]
      omega
  | cons entry older ih =>
      have hswap : n ∈ (Entry.root :: entry :: older).map field ↔
          n = field entry ∨ n ∈ (Entry.root :: older).map field := by
        simp only [List.map_cons, List.mem_cons]
        exact or_left_comm
      rw [hswap, ih h.2, h.1, List.length_cons]
      omega

theorem listing_cons (entry : Entry) (older : List Entry) (n : Int) :
    listing (entry :: older) n =
      if entry.parent = n then listing older n ++ [entry] else listing older n := by
  rw [listing, List.filter_cons]
  split
  · next h =>
      rw [if_pos (by simpa using h), List.reverse_cons]
      rfl
  · next h =>
      rw [if_neg (by simpa using h)]
      rfl

theorem slot_at (start : Int) {entries : List Entry} {entry : Entry} {j : Nat} :
    slot start (entries ++ [entry]) j =
      if j = entries.length then start + entry.block else slot start entries j := by
  rw [slot, slot]
  rcases Nat.lt_trichotomy j entries.length with hlt | rfl | hgt
  · rw [List.getElem?_append_left hlt, if_neg (by omega)]
  · rw [if_pos rfl, List.getElem?_concat_length]
    rfl
  · rw [if_neg (by omega), List.getElem?_eq_none (by simp; omega),
      List.getElem?_eq_none (by omega)]

/-- The first free number of a bitmap whose ones are the numbers up to a bound. -/
theorem first_free {bit : Int → Int} {count i : Int} (hlow : 0 ≤ i)
    (hbits : ∀ n, 0 ≤ n → n ≤ i → (bit n = 1 ↔ n < count))
    (hzero : bit i = 0) (hleast : ∀ n, 0 ≤ n → n < i → bit n = 1) (hcount : 0 ≤ count) :
    i = count := by
  have hused : ¬ i < count := by
    intro hlt
    have hone := (hbits i hlow (Int.le_refl i)).mpr hlt
    omega
  rcases Int.lt_or_le count i with hlt | hle
  · have hone := hleast count hcount hlt
    exact absurd ((hbits count hcount (by omega)).mp hone) (by omega)
  · omega

namespace Ordered

variable {fs : FileSystem} {tree : NameTree} (h : Ordered fs tree)

include h

theorem congr {next : FileSystem} (hsame : SameDisk fs next) : Ordered next tree := by
  obtain ⟨disk, buffer, entryBuffer, info⟩ := fs
  obtain ⟨disk', buffer', entryBuffer', info'⟩ := next
  have hnext := h.represents.congr hsame
  obtain ⟨rfl, rfl⟩ := hsame
  exact ⟨hnext, h.inodes, h.blocks, h.pointers, h.few⟩

theorem inodeBit_iff {n : Int} (hlow : 0 ≤ n) (hhigh : n < fs.info.totalInodes) :
    fs.inodeBit n = 1 ↔ n < tree.entries.length + 1 := by
  have hlayout := h.represents.layout.inodeBits
  rw [h.represents.inodeBits n hlow (by rw [bitsPerBlock]; omega), NameTree.nodes,
    h.inodes.mem_map_iff rfl]
  omega

theorem dataBit_iff {n : Int} (hlow : 0 ≤ n) (hhigh : n < fs.info.dataregionBlocks) :
    fs.dataBit n = 1 ↔ n < tree.entries.length + 1 := by
  have hlayout := h.represents.layout.dataBits
  rw [h.represents.dataBits n hlow (by rw [bitsPerBlock]; omega), NameTree.nodes,
    h.blocks.mem_map_iff rfl]
  omega

theorem first_null {parent : Entry} (hparent : parent ∈ tree.nodes) {j : Nat} (hj : j < 12)
    (hzero : fs.ptr parent.inode j = 0)
    (hleast : ∀ k, k < j → fs.ptr parent.inode k ≠ 0) :
    j = (listing tree.entries parent.inode).length := by
  obtain ⟨hlow, hhigh⟩ := h.represents.inode_range parent hparent
  have hpos := h.represents.dataStart_pos
  have hused : ∀ k, k < (listing tree.entries parent.inode).length →
      fs.ptr parent.inode k ≠ 0 := by
    intro k hk hnull
    have hfew := h.few parent.inode
    have hmem : (listing tree.entries parent.inode)[k] ∈ tree.entries :=
      (List.mem_filter.mp (List.mem_reverse.mp (List.getElem_mem hk))).1
    have hblock := h.represents.block_range _ (NameTree.mem_nodes hmem)
    rw [h.pointers _ k hlow hhigh (by omega), slot, List.getElem?_eq_getElem hk] at hnull
    change _ + _ = (0 : Int) at hnull
    omega
  rcases Nat.lt_trichotomy j (listing tree.entries parent.inode).length with
    hlt | heq | hgt
  · exact absurd hzero (hused j hlt)
  · exact heq
  · refine absurd ?_ (hleast _ hgt)
    rw [h.pointers _ _ hlow hhigh (by omega), slot, List.getElem?_eq_none (Nat.le_refl _)]
    rfl

end Ordered

theorem Ordered.insert {fs next : FileSystem} {tree : NameTree} (h : Ordered fs tree)
    {parent : Entry} (hparent : parent ∈ tree.nodes) {last : List UInt8}
    (hchild : tree.child parent.inode last = none) (hnul : 0 ∉ last)
    (hlength : last.length ≤ 507) {i d : Int} {j : Nat} {stale : Bytes}
    (hi : 0 ≤ i ∧ i < fs.info.totalInodes) (hd : 0 ≤ d ∧ d < fs.info.dataregionBlocks)
    (hj : j < 12) (hibit : fs.inodeBit i = 0) (hdbit : fs.dataBit d = 0)
    (hzero : fs.ptr parent.inode j = 0)
    (hileast : ∀ n, 0 ≤ n → n < i → fs.inodeBit n ≠ 0)
    (hdleast : ∀ n, 0 ≤ n → n < d → fs.dataBit n ≠ 0)
    (hjleast : ∀ k, k < j → fs.ptr parent.inode k ≠ 0)
    (hchange : Changes fs next (fun n bit => if n = i then 1 else bit)
      (fun n bit => if n = d then 1 else bit)
      (fun n k old =>
        if n = parent.inode ∧ k = j then fs.info.dataregionBlocksStart + d else old)
      (fun b old => if b = d then FilepathBlock.make stale last i else old)) :
    ∃ after : NameTree, after.entries =
        { inode := tree.entries.length + 1, block := tree.entries.length + 1,
          parent := parent.inode, name := last } :: tree.entries ∧ Ordered next after := by
  obtain rfl : i = tree.entries.length + 1 :=
    first_free hi.1 (fun n hn hn' => h.inodeBit_iff hn (by omega)) hibit
      (fun n hn hn' => (statusBit_cases _ _ hn).resolve_left (hileast n hn hn')) (by omega)
  obtain rfl : d = tree.entries.length + 1 :=
    first_free hd.1 (fun n hn hn' => h.dataBit_iff hn (by omega)) hdbit
      (fun n hn hn' => (statusBit_cases _ _ hn).resolve_left (hdleast n hn hn')) (by omega)
  have hj' := h.first_null hparent hj hzero hjleast
  have hinode : (tree.entries.length + 1 : Int) ∉ tree.nodes.map Entry.inode := by
    rw [NameTree.nodes, h.inodes.mem_map_iff rfl]
    omega
  have hblock : (tree.entries.length + 1 : Int) ∉ tree.nodes.map Entry.block := by
    rw [NameTree.nodes, h.blocks.mem_map_iff rfl]
    omega
  let leaf : Entry :=
    { inode := tree.entries.length + 1, block := tree.entries.length + 1,
      parent := parent.inode, name := last }
  let after := tree.insert leaf ⟨parent, hparent, rfl⟩ hinode hblock hchild
  have hnext : Represents next after :=
    h.represents.insert rfl hparent rfl hj hzero hi hd hblock hnul hlength hchange
  refine ⟨after, rfl, ?_⟩
  refine
    { represents := hnext
      inodes := ⟨rfl, h.inodes⟩
      blocks := ⟨rfl, h.blocks⟩
      pointers := ?_
      few := ?_ }
  · intro n k hlow hhigh hk
    rw [hchange.info] at hhigh ⊢
    rw [hchange.ptr n k hlow hhigh hk, h.pointers n k hlow hhigh hk]
    change _ = slot _ (listing (leaf :: tree.entries) n) k
    rw [listing_cons]
    rcases Classical.em (parent.inode = n) with rfl | hother
    · rw [if_pos rfl, slot_at, ← hj']
      simp only [true_and]
      rfl
    · rw [if_neg fun hboth => hother hboth.1.symm, if_neg hother]
  · intro n
    change (listing (leaf :: tree.entries) n).length ≤ 12
    rw [listing_cons]
    split
    · next hup =>
        have hup : parent.inode = n := hup
        rw [List.length_append, ← hup, ← hj']
        exact hj
    · exact h.few n

theorem ordered_sfsInit {fs : FileSystem} {totalSize : Int} (hcovered : Covered totalSize)
    (hbuffer : fs.buffer = fun _ => 0) (staleNode staleSblock staleFblock : Bytes) :
    Ordered (fs.sfsInit totalSize staleNode staleSblock staleFblock) .empty := by
  have hrepresents := represents_sfsInit hbuffer hcovered staleNode staleSblock staleFblock
  refine
    { represents := hrepresents
      inodes := trivial
      blocks := trivial
      pointers := ?_
      few := fun n => Nat.zero_le 12 }
  intro n j hlow hhigh hj
  change _ = (0 : Int)
  refine Classical.not_not.mp fun hne => ?_
  obtain ⟨entry, hentry, -⟩ := hrepresents.pointer n j hlow hhigh hj hne
  exact List.not_mem_nil hentry

/-- One call does on the disk what it does on the tree. -/
theorem Ordered.create {fs : FileSystem} {tree : NameTree} (h : Ordered fs tree)
    {path : List UInt8} (hallowed : Allowed fs path) (stale : Bytes) :
    ∃ next after, fs.create stale path = some ((tree.add path).1, next) ∧
      after.entries = (tree.add path).2 ∧ Ordered next after ∧ next.info = fs.info := by
  have hnul : ∀ name ∈ parsePath path, 0 ∉ name :=
    fun name => nul_not_mem_parsePath hallowed.absolute
  obtain ⟨folders, last, hpath⟩ := parsePath_concat hallowed.absolute
  have hlast : (parsePath path).getLast? = some last := by
    rw [hpath, List.getLast?_concat]
  have hmem : last ∈ parsePath path := by
    rw [hpath]
    exact List.mem_append_right _ List.mem_cons_self
  have hfound := h.represents.findPathBlock_locate hallowed.absolute
  have hnode := tree.locate_mem (parsePath path)
  unfold NameTree.add
  rw [hlast, Option.getD_some]
  dsimp only
  split
  · next hname =>
      have hkept : SameDisk fs (fs.findPathBlock path).2 := SameDisk.searchFolders _ _ _
      exact ⟨_, tree, create_exists h.represents hlast hnode (hnul last hmem) hfound hname
        stale, rfl, h.congr hkept, hkept.info⟩
  · next hname =>
      -- the search stopped in the directory of the path
      obtain ⟨n, hleads, hroom⟩ := hallowed.parent
      rw [hpath, List.dropLast_concat] at hleads
      obtain ⟨parent, hparent, rfl⟩ := hleads.resolve h.represents tree.root_mem rfl
        fun name hname => hnul name (hpath ▸ List.mem_append_left _ hname)
      have hlocate : tree.locate (parsePath path) = tree.locateFrom parent [last] := by
        rw [NameTree.locate, hpath]
        exact NameTree.locateFrom_of_resolveFrom hparent [last]
      have hchild : tree.child parent.inode last = none := by
        refine Option.eq_none_iff_forall_ne_some.mpr fun entry hentry => hname ?_
        rw [hlocate]
        simp only [NameTree.locateFrom, hentry]
        exact (NameTree.child_mem hentry).2.2.symm
      have hlocate : tree.locate (parsePath path) = parent := by
        rw [hlocate]
        simp only [NameTree.locateFrom, hchild]
      rw [hlocate] at hfound hname hnode ⊢
      obtain ⟨next, i, d, j, hcreate, hilow, hihigh, hibit, hdlow, hdhigh, hdbit, hj,
        hzero, hileast, hdleast, hjleast, hchange⟩ := create_changes h.represents hlast
          hnode (hnul last hmem) (Nat.lt_succ_of_le (hallowed.length last hmem)) hfound
          hname hroom hallowed.inode hallowed.block stale
      obtain ⟨after, hentries, hafter⟩ := h.insert hnode hchild (hnul last hmem)
        (hallowed.length last hmem) ⟨hilow, hihigh⟩ ⟨hdlow, hdhigh⟩ hj hibit hdbit hzero
          hileast hdleast hjleast hchange
      exact ⟨next, after, hcreate, hentries, hafter, hchange.info⟩

theorem Reachable.ordered {totalSize : Int} (hcovered : Covered totalSize)
    {fs : FileSystem} (hfs : Reachable totalSize fs) : ∃ tree, Ordered fs tree := by
  induction hfs with
  | init fs hbuffer staleNode staleSblock staleFblock =>
      exact ⟨_, ordered_sfsInit hcovered hbuffer staleNode staleSblock staleFblock⟩
  | create stale _ hallowed hcreate ih =>
      obtain ⟨tree, htree⟩ := ih
      obtain ⟨next', after, hcreate', -, hafter, -⟩ := htree.create hallowed stale
      rw [hcreate] at hcreate'
      obtain ⟨-, rfl⟩ := Prod.mk.inj (Option.some.inj hcreate')
      exact ⟨after, hafter⟩

/-- On every reachable disk both bitmaps are ones up to the number of entries, the
k-th entry has inode and data block k, and the pointers of a directory are its
entries in the order of their creation, without a gap. -/
theorem disk_in_creation_order {totalSize : Int} (hcovered : Covered totalSize)
    {fs : FileSystem} (hfs : Reachable totalSize fs) :
    ∃ tree, Represents fs tree ∧ Numbered Entry.inode tree.entries ∧
      Numbered Entry.block tree.entries ∧
      (∀ n, 0 ≤ n → n < fs.info.totalInodes →
        fs.inodeBit n = if n ≤ tree.entries.length then 1 else 0) ∧
      (∀ n, 0 ≤ n → n < fs.info.dataregionBlocks →
        fs.dataBit n = if n ≤ tree.entries.length then 1 else 0) ∧
      ∀ n, 0 ≤ n → n < fs.info.totalInodes →
        (listing tree.entries n).length ≤ 12 ∧ ∀ j, j < 12 →
          fs.ptr n j = slot fs.info.dataregionBlocksStart (listing tree.entries n) j := by
  obtain ⟨tree, htree⟩ := hfs.ordered hcovered
  refine ⟨tree, htree.represents, htree.inodes, htree.blocks, ?_, ?_, ?_⟩
  · intro n hlow hhigh
    have hiff := htree.inodeBit_iff hlow hhigh
    split
    · exact hiff.mpr (by omega)
    · exact (statusBit_cases _ _ hlow).resolve_right fun hone =>
        absurd (hiff.mp hone) (by omega)
  · intro n hlow hhigh
    have hiff := htree.dataBit_iff hlow hhigh
    split
    · exact hiff.mpr (by omega)
    · exact (statusBit_cases _ _ hlow).resolve_right fun hone =>
        absurd (hiff.mp hone) (by omega)
  · exact fun n hlow hhigh => ⟨htree.few n, fun j hj => htree.pointers n j hlow hhigh hj⟩

theorem disk_in_creation_order_filled : ∃ fs tree, Represents fs tree ∧
    fs.inodeBit 0 = 1 ∧ (listing tree.entries 0).length ≤ 12 := by
  obtain ⟨fs, -, hreachable, -⟩ := blankDisk_filled
  obtain ⟨tree, htree, -, -, hbits, -, hlistings⟩ :=
    disk_in_creation_order blankDisk_covered hreachable
  have hroot := htree.inode_range _ tree.root_mem
  refine ⟨fs, tree, htree, ?_, (hlistings 0 hroot.1 hroot.2).1⟩
  rw [hbits 0 hroot.1 hroot.2, if_pos (by omega)]

/-- The paths that `create` was called with since `sfs_init` and what it returned,
newest first. -/
inductive Creations (totalSize : Int) :
    List (List UInt8) → List Int → FileSystem → Prop
  | init (fs : FileSystem) (hbuffer : fs.buffer = fun _ => 0)
      (staleNode staleSblock staleFblock : Bytes) :
      Creations totalSize [] [] (fs.sfsInit totalSize staleNode staleSblock staleFblock)
  | create {fs next : FileSystem} {paths : List (List UInt8)} {results : List Int}
      {path : List UInt8} {result : Int} (stale : Bytes)
      (hfs : Creations totalSize paths results fs) (hallowed : Allowed fs path)
      (hcreate : fs.create stale path = some (result, next)) :
      Creations totalSize (path :: paths) (result :: results) next

theorem NameTree.eq_of_entries {first second : NameTree}
    (h : first.entries = second.entries) : first = second := by
  cases first
  cases second
  cases h
  rfl

theorem Creations.agree {totalSize : Int} (hcovered : Covered totalSize)
    {paths : List (List UInt8)} {results results' : List Int} {fs fs' : FileSystem}
    (h : Creations totalSize paths results fs)
    (h' : Creations totalSize paths results' fs') :
    results = results' ∧ fs.info = fs'.info ∧
      ∃ tree, Ordered fs tree ∧ Ordered fs' tree := by
  induction h generalizing results' fs' with
  | init fs hbuffer staleNode staleSblock staleFblock =>
      cases h' with
      | init fs' hbuffer' staleNode' staleSblock' staleFblock' =>
          refine ⟨rfl, ?_, _, ordered_sfsInit hcovered hbuffer staleNode staleSblock staleFblock,
            ordered_sfsInit hcovered hbuffer' staleNode' staleSblock' staleFblock'⟩
          rw [sfsInit_info, sfsInit_info]
  | create stale _ hallowed hcreate ih =>
      cases h' with
      | create stale' hfs' hallowed' hcreate' =>
          obtain ⟨rfl, hinfo, tree, htree, htree'⟩ := ih hfs'
          obtain ⟨next, after, hmade, hentries, hafter, hsame⟩ :=
            htree.create hallowed stale
          obtain ⟨next', after', hmade', hentries', hafter', hsame'⟩ :=
            htree'.create hallowed' stale'
          rw [hcreate] at hmade
          rw [hcreate'] at hmade'
          obtain ⟨rfl, rfl⟩ := Prod.mk.inj (Option.some.inj hmade)
          obtain ⟨rfl, rfl⟩ := Prod.mk.inj (Option.some.inj hmade')
          obtain rfl := NameTree.eq_of_entries (hentries.trans hentries'.symm)
          exact ⟨rfl, by rw [hsame, hsame', hinfo], after, hafter, hafter'⟩

/-- The results, the metadata and the names on the disk are a function of the
calls: what the disk, the buffers and the stack held before shows nowhere. -/
theorem creations_determine_disk {totalSize : Int} (hcovered : Covered totalSize)
    {paths : List (List UInt8)} {results results' : List Int} {fs fs' : FileSystem}
    (h : Creations totalSize paths results fs)
    (h' : Creations totalSize paths results' fs') :
    results = results' ∧ fs.info = fs'.info ∧
      (∀ n, 0 ≤ n → n < fs.info.totalInodes → fs.inodeBit n = fs'.inodeBit n) ∧
      (∀ n, 0 ≤ n → n < fs.info.dataregionBlocks → fs.dataBit n = fs'.dataBit n) ∧
      (∀ n j, 0 ≤ n → n < fs.info.totalInodes → j < 12 → fs.ptr n j = fs'.ptr n j) ∧
      (∀ n, 0 ≤ n → n < fs.info.dataregionBlocks → fs.dataBit n = 1 →
        FilepathBlock.inode (fs.entryBlock n) = FilepathBlock.inode (fs'.entryBlock n) ∧
          ∃ name, HoldsName (fs.entryBlock n) 0 name ∧ HoldsName (fs'.entryBlock n) 0 name) ∧
      ∀ path, Absolute path →
        FilepathBlock.inode (fs.findPathBlock path).1 =
          FilepathBlock.inode (fs'.findPathBlock path).1 := by
  obtain ⟨rfl, hinfo, tree, htree, htree'⟩ := h.agree hcovered h'
  have hsame : ∀ (bit bit' : Int), (bit = 0 ∨ bit = 1) → (bit' = 0 ∨ bit' = 1) →
      (bit = 1 ↔ bit' = 1) → bit = bit' := by omega
  have hbits := htree.represents.layout.dataBits
  have hinodes := fun n hlow hhigh =>
    (htree.inodeBit_iff (n := n) hlow hhigh).trans
      (htree'.inodeBit_iff hlow (hinfo ▸ hhigh)).symm
  have hblocks := fun n hlow hhigh =>
    (htree.dataBit_iff (n := n) hlow hhigh).trans
      (htree'.dataBit_iff hlow (hinfo ▸ hhigh)).symm
  refine ⟨rfl, hinfo, ?_, ?_, ?_, ?_, ?_⟩
  · intro n hlow hhigh
    exact hsame _ _ (statusBit_cases _ _ hlow) (statusBit_cases _ _ hlow)
      (hinodes n hlow hhigh)
  · intro n hlow hhigh
    exact hsame _ _ (statusBit_cases _ _ hlow) (statusBit_cases _ _ hlow)
      (hblocks n hlow hhigh)
  · intro n j hlow hhigh hj
    rw [htree.pointers n j hlow hhigh hj, htree'.pointers n j hlow (hinfo ▸ hhigh) hj, hinfo]
  · intro n hlow hhigh hused
    rw [htree.represents.dataBits n hlow (by rw [bitsPerBlock]; omega)] at hused
    obtain ⟨entry, hentry, rfl⟩ := List.mem_map.mp hused
    refine ⟨?_, entry.name, htree.represents.name entry hentry,
      htree'.represents.name entry hentry⟩
    rw [htree.represents.inode entry hentry, htree'.represents.inode entry hentry]
  · intro path hpath
    have hnode := tree.locate_mem (parsePath path)
    rw [htree.represents.findPathBlock_locate hpath,
      htree'.represents.findPathBlock_locate hpath, htree.represents.inode _ hnode,
      htree'.represents.inode _ hnode]

/-- `"/a"` made twice, with different bytes on the stack. -/
theorem creations_determine_disk_stacks : ∃ fs fs',
    Creations 8388608 [[47, 97]] [0] fs ∧ Creations 8388608 [[47, 97]] [0] fs' ∧
      fs.ptr 0 0 = fs'.ptr 0 0 := by
  have hstart : Creations 8388608 [] [] blankDisk := .init _ rfl _ _ _
  have hallowed : Allowed blankDisk [47, 97] :=
    blankDisk_flat.allowed (by decide) (by decide) (by decide)
  have hmade : ∀ stale : Bytes, ∃ fs, Creations 8388608 [[47, 97]] [0] fs := by
    intro stale
    obtain ⟨fs, -, hcreate, -⟩ :=
      blankDisk_flat.create (c := 97) (by decide) (by decide) (by decide) (by decide) stale
    exact ⟨fs, .create stale hstart hallowed hcreate⟩
  obtain ⟨fs, hfs⟩ := hmade fun _ => 0
  obtain ⟨fs', hfs'⟩ := hmade fun _ => 7
  obtain ⟨-, -, -, -, hptr, -, -⟩ := creations_determine_disk blankDisk_covered hfs hfs'
  obtain ⟨-, -, tree, htree, -⟩ := hfs.agree blankDisk_covered hfs'
  have hroot := htree.represents.inode_range _ tree.root_mem
  exact ⟨fs, fs', hfs, hfs', hptr 0 0 hroot.1 hroot.2 (by decide)⟩

end RutgersOS.Sfs
