import RutgersOS.Sfs.Refinement

namespace RutgersOS.Sfs

open RutgersOS.Memory

/-- The path names an entry, read off the disk. -/
def Resolves (fs : FileSystem) (names : List (List UInt8)) : Prop :=
  ∃ n, Leads fs 0 names n

theorem Leads.of_resolveFrom {fs : FileSystem} {tree : NameTree}
    (h : Represents fs tree) {names : List (List UInt8)} :
    ∀ {entry reached : Entry}, entry ∈ tree.nodes →
      tree.resolveFrom entry names = some reached →
        Leads fs entry.inode names reached.inode := by
  induction names with
  | nil =>
      intro entry reached _ hreached
      obtain rfl := Option.some.inj hreached
      exact .here _
  | cons name rest ih =>
      intro entry reached hentry hreached
      obtain ⟨next, hchild, hrest⟩ := Option.bind_eq_some_iff.mp hreached
      obtain ⟨hmem, hup, hname⟩ := NameTree.child_mem hchild
      have hnode := NameTree.mem_nodes hmem
      obtain ⟨j, hj, hptr⟩ := h.referenced next hmem
      rw [hup] at hptr
      have hpos := h.dataStart_pos
      have hrange := h.block_range next hnode
      have hblock : fs.disk (fs.ptr entry.inode j) = fs.entryBlock next.block := by
        rw [hptr]
        rfl
      refine .into hj (by omega) ?_ ?_
      · rw [hblock, ← hname]
        exact h.name next hnode
      · rw [hblock, h.inode next hnode]
        exact ih hnode hrest

theorem Represents.resolves_iff {fs : FileSystem} {tree : NameTree}
    (h : Represents fs tree) {names : List (List UInt8)}
    (hnul : ∀ name ∈ names, 0 ∉ name) :
    Resolves fs names ↔ tree.resolve names ≠ none := by
  constructor
  · rintro ⟨n, hleads⟩
    obtain ⟨reached, hreached, -⟩ := hleads.resolve h tree.root_mem rfl hnul
    rw [NameTree.resolve, hreached]
    exact Option.some_ne_none reached
  · intro hsome
    obtain ⟨reached, hreached⟩ := Option.ne_none_iff_exists'.mp hsome
    exact ⟨_, Leads.of_resolveFrom h tree.root_mem hreached⟩

theorem NameTree.name_of_resolve {tree : NameTree} {names : List (List UInt8)}
    {entry : Entry} (h : tree.resolve names = some entry) :
    entry.name = names.getLast?.getD [] := by
  rcases List.eq_nil_or_concat names with rfl | ⟨front, last, rfl⟩
  · obtain rfl := Option.some.inj h
    rfl
  · rw [List.concat_eq_append] at h ⊢
    rw [NameTree.resolve_concat] at h
    obtain ⟨parent, -, hchild⟩ := Option.bind_eq_some_iff.mp h
    rw [(NameTree.child_mem hchild).2.2, List.getLast?_concat]
    rfl

theorem parsePath_concat {path : List UInt8} (h : Absolute path) :
    ∃ folders last, parsePath path = folders ++ [last] := by
  rcases List.eq_nil_or_concat (parsePath path) with hnil | ⟨folders, last, heq⟩
  · exact absurd hnil (parsePath_ne_nil h)
  · exact ⟨folders, last, heq.trans List.concat_eq_append⟩

/-- The call returns -1 and writes no block. -/
def Refuses (fs : FileSystem) (stale : Bytes) (path : List UInt8) : Prop :=
  ∃ next, fs.create stale path = some (-1, next) ∧ next.disk = fs.disk

/-- `create` compares names and does nothing else before it writes. -/
theorem refuses_iff_strcmp (fs : FileSystem) {path last : List UInt8}
    (hlast : (parsePath path).getLast? = some last) (stale : Bytes) :
    Refuses fs stale path ↔ strcmpEqual (fs.findPathBlock path).1 0 last = true := by
  constructor
  · rintro ⟨next, hcreate, -⟩
    cases hname : strcmpEqual (fs.findPathBlock path).1 0 last with
    | true => rfl
    | false =>
        simp only [FileSystem.create, hlast, hname, Option.bind_eq_bind,
          Option.bind_some] at hcreate
        -- past the comparison no branch returns -1
        rw [if_neg Bool.false_ne_true] at hcreate
        split at hcreate
        · obtain ⟨ptr, -, hcreate⟩ := Option.bind_eq_some_iff.mp hcreate
          have hresult := (Prod.mk.inj (Option.some.inj hcreate)).1
          cases hresult
        · cases hcreate
  · intro hname
    have hkept : SameDisk fs (fs.findPathBlock path).2 := SameDisk.searchFolders _ _ _
    refine ⟨(fs.findPathBlock path).2, ?_, hkept.disk⟩
    simp only [FileSystem.create, hlast, hname, Option.bind_eq_bind, Option.bind_some,
      if_true]

theorem refuses_iff {fs : FileSystem} {tree : NameTree} (h : Represents fs tree)
    {path last : List UInt8} (hpath : Absolute path)
    (hlast : (parsePath path).getLast? = some last) (stale : Bytes) :
    Refuses fs stale path ↔ last = (tree.locate (parsePath path)).name := by
  have hnul := nul_not_mem_parsePath hpath (List.mem_of_getLast? hlast)
  rw [refuses_iff_strcmp fs hlast, h.findPathBlock_locate hpath]
  exact h.strcmp_entry (tree.locate_mem (parsePath path)) hnul

def FindsOwn (fs : FileSystem) (path : List UInt8) : Prop :=
  ∃ last n j, (parsePath path).getLast? = some last ∧
    Leads fs 0 (parsePath path).dropLast n ∧ j < 12 ∧ fs.ptr n j ≠ 0 ∧
      (fs.findPathBlock path).1 = fs.disk (fs.ptr n j) ∧
        HoldsName (fs.disk (fs.ptr n j)) 0 last

theorem Represents.findsOwn {fs : FileSystem} {tree : NameTree}
    (h : Represents fs tree) {path : List UInt8} (hpath : Absolute path)
    {entry : Entry} (hentry : tree.resolve (parsePath path) = some entry) :
    FindsOwn fs path := by
  obtain ⟨folders, last, heq⟩ := parsePath_concat hpath
  have hlocate : tree.locate (parsePath path) = entry := by
    have hwalk := NameTree.locateFrom_of_resolveFrom hentry []
    rwa [List.append_nil] at hwalk
  have hfound := h.findPathBlock_locate hpath
  rw [hlocate] at hfound
  rw [heq, NameTree.resolve_concat] at hentry
  obtain ⟨parent, hparent, hchild⟩ := Option.bind_eq_some_iff.mp hentry
  obtain ⟨hmem, hup, hname⟩ := NameTree.child_mem hchild
  obtain ⟨j, hj, hptr⟩ := h.referenced entry hmem
  have hblock : fs.disk (fs.ptr entry.parent j) = fs.entryBlock entry.block := by
    rw [hptr]
    rfl
  have hpos := h.dataStart_pos
  have hrange := h.block_range entry (NameTree.mem_nodes hmem)
  refine ⟨last, entry.parent, j, ?_, ?_, hj, by omega, hfound.trans hblock.symm, ?_⟩
  · rw [heq, List.getLast?_concat]
  · rw [heq, List.dropLast_concat, hup]
    exact Leads.of_resolveFrom h tree.root_mem hparent
  · rw [hblock, ← hname]
    exact h.name entry (NameTree.mem_nodes hmem)

/-- What a call of `create` is promised to get, on a name of any length. -/
structure Creatable (fs : FileSystem) (path : List UInt8) : Prop where
  absolute : Absolute path
  nonempty : ∀ name ∈ parsePath path, name ≠ []
  parent : ∃ n, Leads fs 0 (parsePath path).dropLast n ∧
    ∃ j, j < 12 ∧ fs.ptr n j = 0
  inode : ∃ n, 0 ≤ n ∧ n < fs.info.totalInodes ∧ fs.inodeBit n = 0
  block : ∃ n, 0 ≤ n ∧ n < fs.info.dataregionBlocks ∧ fs.dataBit n = 0

def Recognises (fs : FileSystem) (stale : Bytes) (path : List UInt8) : Prop :=
  (Resolves fs (parsePath path) → Refuses fs stale path) ∧
    (¬ Resolves fs (parsePath path) →
      ∃ next, fs.create stale path = some (0, next) ∧ FindsOwn next path)

/-- The last component is not called like the directory it goes to, and fits
into `filepath`. -/
structure Distinguishable (path : List UInt8) : Prop where
  parent : (parsePath path).dropLast.getLast? ≠ (parsePath path).getLast?
  length : ∀ last, (parsePath path).getLast? = some last → last.length < 508

section Existing

variable {fs : FileSystem} {tree : NameTree} {path : List UInt8}
  (h : Represents fs tree) (hcreatable : Creatable fs path)

include h hcreatable

theorem refuses_of_resolves (stale : Bytes)
    (hresolves : Resolves fs (parsePath path)) : Refuses fs stale path := by
  have hnul : ∀ name ∈ parsePath path, 0 ∉ name :=
    fun name => nul_not_mem_parsePath hcreatable.absolute
  obtain ⟨entry, hentry⟩ :=
    Option.ne_none_iff_exists'.mp ((h.resolves_iff hnul).mp hresolves)
  obtain ⟨folders, last, heq⟩ := parsePath_concat hcreatable.absolute
  have hlast : (parsePath path).getLast? = some last := by
    rw [heq, List.getLast?_concat]
  have hlocate : tree.locate (parsePath path) = entry := by
    have hwalk := NameTree.locateFrom_of_resolveFrom hentry []
    rwa [List.append_nil] at hwalk
  rw [refuses_iff h hcreatable.absolute hlast, hlocate,
    NameTree.name_of_resolve hentry, hlast]
  rfl

/-- The walk to a new path ends in its directory. -/
theorem locate_parent {folders : List (List UInt8)} {last : List UInt8}
    (heq : parsePath path = folders ++ [last])
    (hnew : ¬ Resolves fs (parsePath path)) :
    ∃ parent, tree.resolve folders = some parent ∧
      tree.child parent.inode last = none ∧
        tree.locate (parsePath path) = parent ∧
          ∃ j, j < 12 ∧ fs.ptr parent.inode j = 0 := by
  have hnul : ∀ name ∈ parsePath path, 0 ∉ name :=
    fun name => nul_not_mem_parsePath hcreatable.absolute
  obtain ⟨n, hleads, hroom⟩ := hcreatable.parent
  rw [heq, List.dropLast_concat] at hleads
  obtain ⟨parent, hparent, rfl⟩ := hleads.resolve h tree.root_mem rfl
    fun name hname => hnul name (heq ▸ List.mem_append_left _ hname)
  have hchild : tree.child parent.inode last = none := by
    have hnone := Classical.not_not.mp (mt (h.resolves_iff hnul).mpr hnew)
    rw [heq, NameTree.resolve_concat] at hnone
    rwa [NameTree.resolve, hparent, Option.bind_some] at hnone
  refine ⟨parent, hparent, hchild, ?_, hroom⟩
  rw [NameTree.locate, heq, NameTree.locateFrom_of_resolveFrom hparent]
  simp only [NameTree.locateFrom, hchild]

theorem recognises_iff (stale : Bytes) :
    Recognises fs stale path ↔
      Resolves fs (parsePath path) ∨ Distinguishable path := by
  have hnul : ∀ name ∈ parsePath path, 0 ∉ name :=
    fun name => nul_not_mem_parsePath hcreatable.absolute
  obtain ⟨folders, last, heq⟩ := parsePath_concat hcreatable.absolute
  have hmem : last ∈ parsePath path := by
    rw [heq]
    exact List.mem_append_right _ List.mem_cons_self
  have hlast : (parsePath path).getLast? = some last := by
    rw [heq, List.getLast?_concat]
  have hdrop : (parsePath path).dropLast = folders := by
    rw [heq, List.dropLast_concat]
  rcases Classical.em (Resolves fs (parsePath path)) with hold | hnew
  · exact iff_of_true ⟨fun _ => refuses_of_resolves h hcreatable stale hold,
      fun hnot => absurd hold hnot⟩ (Or.inl hold)
  · obtain ⟨parent, hparent, hchild, hlocate, hroom⟩ :=
      locate_parent h hcreatable heq hnew
    have hcalled : parent.name = folders.getLast?.getD [] :=
      NameTree.name_of_resolve hparent
    constructor
    · rintro ⟨-, hmade⟩
      obtain ⟨next, hcreate, -⟩ := hmade hnew
      refine Or.inr ⟨?_, ?_⟩
      · intro hsame
        rw [hdrop, hlast] at hsame
        have hrefuses : Refuses fs stale path := by
          rw [refuses_iff h hcreatable.absolute hlast, hlocate, hcalled, hsame]
          rfl
        obtain ⟨other, hother, -⟩ := hrefuses
        rw [hcreate] at hother
        have hresult := (Prod.mk.inj (Option.some.inj hother)).1
        cases hresult
      · intro name hname
        obtain rfl := Option.some.inj (hlast.symm.trans hname)
        refine Nat.not_le.mp fun hlong => ?_
        have hshort : ¬ last.length < 508 := Nat.not_lt.mpr hlong
        simp only [FileSystem.create, hlast, if_neg hshort, Option.bind_eq_bind,
          Option.bind_some, Option.bind_none] at hcreate
        split at hcreate
        · have hresult := (Prod.mk.inj (Option.some.inj hcreate)).1
          cases hresult
        · cases hcreate
    · rintro (hold | hdistinguishable)
      · exact absurd hold hnew
      · have hlength := hdistinguishable.length last hlast
        have hname : last ≠ parent.name := by
          rw [hcalled]
          intro hsame
          apply hdistinguishable.parent
          rw [hdrop, hlast]
          cases hup : folders.getLast? with
          | none =>
              rw [hup, Option.getD_none] at hsame
              exact absurd hsame (hcreatable.nonempty last hmem)
          | some name =>
              rw [hup, Option.getD_some] at hsame
              rw [hsame]
        have hfound := h.findPathBlock_locate hcreatable.absolute
        rw [hlocate] at hfound
        obtain ⟨next, after, leaf, hcreate, hnext, -, -, -, -, -, hresolve, -⟩ :=
          h.grow heq hparent hchild hfound (hnul last hmem) hlength hname hroom
            hcreatable.inode hcreatable.block stale
        have hentry := (hresolve (parsePath path)).trans (if_pos rfl)
        exact ⟨fun hold => absurd hold hnew,
          fun _ => ⟨next, hcreate, hnext.findsOwn hcreatable.absolute hentry⟩⟩

end Existing

/-- Outside the names of the directories, `create` tells existing paths from new
ones. -/
theorem create_recognises_iff {totalSize : Int} (hcovered : Covered totalSize)
    {fs : FileSystem} (hfs : Reachable totalSize fs) {path : List UInt8}
    (hcreatable : Creatable fs path) (stale : Bytes) :
    Recognises fs stale path ↔
      Resolves fs (parsePath path) ∨ Distinguishable path := by
  obtain ⟨tree, htree⟩ := hfs.represents hcovered
  exact recognises_iff htree hcreatable stale

/-- The deepest directory of the path that exists is called like the leaf. -/
def NamesakeAbove (fs : FileSystem) (path : List UInt8) : Prop :=
  ∃ front last, (parsePath path).getLast? = some last ∧
    front ++ [last] <+: parsePath path ∧ Resolves fs (front ++ [last]) ∧
      ∀ longer, longer <+: parsePath path → Resolves fs longer →
        longer <+: front ++ [last]

/-- A path through a missing directory is refused for its name alone. -/
theorem create_missing_iff {totalSize : Int} (hcovered : Covered totalSize)
    {fs : FileSystem} (hfs : Reachable totalSize fs) {path : List UInt8}
    (hpath : Absolute path) (hnonempty : ∀ name ∈ parsePath path, name ≠ [])
    (_hmissing : ¬ Resolves fs (parsePath path).dropLast) (stale : Bytes) :
    Refuses fs stale path ↔ NamesakeAbove fs path := by
  obtain ⟨tree, htree⟩ := hfs.represents hcovered
  obtain ⟨folders, last, heq⟩ := parsePath_concat hpath
  have hlast : (parsePath path).getLast? = some last := by
    rw [heq, List.getLast?_concat]
  have hresolves : ∀ names, names <+: parsePath path →
      (Resolves fs names ↔ tree.resolve names ≠ none) := by
    intro names hnames
    exact htree.resolves_iff fun name hname =>
      nul_not_mem_parsePath hpath (hnames.subset hname)
  obtain ⟨before, hbefore, hreached, hlongest⟩ :=
    tree.locate_isLongestPrefix (parsePath path)
  rw [refuses_iff htree hpath hlast, NameTree.name_of_resolve hreached]
  constructor
  · intro hname
    rcases List.eq_nil_or_concat before with rfl | ⟨front, top, rfl⟩
    · exact absurd hname (hnonempty last (List.mem_of_getLast? hlast))
    · rw [List.concat_eq_append] at hbefore hreached hlongest hname
      rw [List.getLast?_concat, Option.getD_some] at hname
      subst hname
      refine ⟨front, last, hlast, hbefore, ?_, ?_⟩
      · rw [hresolves _ hbefore, hreached]
        nofun
      · intro longer hlonger hexists
        exact hlongest longer hlonger ((hresolves longer hlonger).mp hexists)
  · rintro ⟨front, top, htop, hfront, hexists, hdeepest⟩
    obtain rfl := Option.some.inj (hlast.symm.trans htop)
    have hup := hlongest _ hfront ((hresolves _ hfront).mp hexists)
    have hdown := hdeepest before hbefore ((hresolves _ hbefore).mpr (by
      rw [hreached]
      nofun))
    have hsame := hup.eq_of_length (Nat.le_antisymm hup.length_le hdown.length_le)
    rw [← hsame, List.getLast?_concat]
    rfl

def smallDisk : FileSystem :=
  FileSystem.sfsInit ⟨fun _ _ => 255, fun _ => 0, fun _ => 0, getMetadataInfo 0⟩
    2796203 (fun _ => 7) (fun _ => 7) (fun _ => 7)

theorem smallDisk_covered : Covered 2796203 := by
  constructor <;> decide

theorem smallDisk_represents : Represents smallDisk .empty :=
  represents_sfsInit rfl smallDisk_covered (fun _ => 7) (fun _ => 7) (fun _ => 7)

theorem smallDisk_reachable : Reachable 2796203 smallDisk :=
  .init _ rfl _ _ _

theorem Represents.creatable {fs : FileSystem} {tree : NameTree}
    (h : Represents fs tree) (hinfo : fs.info = getMetadataInfo 2796203)
    {path : List UInt8} (hpath : Absolute path)
    (hnonempty : ∀ name ∈ parsePath path, name ≠ []) {parent : Entry}
    (hparent : tree.resolve (parsePath path).dropLast = some parent)
    (hbare : ∀ entry ∈ tree.entries, entry.parent ≠ parent.inode)
    {i d : Int} (hi : 0 ≤ i ∧ i < 3) (hd : 0 ≤ d ∧ d < 3)
    (hinode : i ∉ tree.nodes.map Entry.inode)
    (hblock : d ∉ tree.nodes.map Entry.block) : Creatable fs path := by
  have hinodes : 3 ≤ fs.info.totalInodes ∧
      3 ≤ bitsPerBlock * fs.info.inodeBitmapBlocks := by
    rw [hinfo]
    decide
  have hblocks : 3 ≤ fs.info.dataregionBlocks ∧
      3 ≤ bitsPerBlock * fs.info.dataregionBitmapBlocks := by
    rw [hinfo]
    decide
  have hnode := NameTree.resolve_mem hparent
  obtain ⟨hlow, hhigh⟩ := h.inode_range parent hnode
  refine
    { absolute := hpath
      nonempty := hnonempty
      parent := ⟨parent.inode, ?_, 0, by decide, ?_⟩
      inode := ⟨i, hi.1, by omega, ?_⟩
      block := ⟨d, hd.1, by omega, ?_⟩ }
  · exact Leads.of_resolveFrom h tree.root_mem hparent
  · refine Classical.not_not.mp fun hptr => ?_
    obtain ⟨entry, hentry, hup, -⟩ := h.pointer _ 0 hlow hhigh (by decide) hptr
    exact hbare entry hentry hup
  · rcases statusBit_cases fs.disk fs.info.inodeBitmapStart hi.1 with hzero | hone
    · exact hzero
    · exact absurd ((h.inodeBits i hi.1 (by omega)).mp hone) hinode
  · rcases statusBit_cases fs.disk fs.info.dataregionBitmapStart hd.1 with hzero | hone
    · exact hzero
    · exact absurd ((h.dataBits d hd.1 (by omega)).mp hone) hblock

theorem smallDisk_creatable : Creatable smallDisk [47, 97] := by
  have hinfo : smallDisk.info = getMetadataInfo 2796203 := sfsInit_info _ _ _ _ _
  exact smallDisk_represents.creatable (i := 1) (d := 1) hinfo ⟨rfl, by decide⟩
    (by decide) rfl nofun (by decide) (by decide) (by decide) (by decide)

theorem smallDisk_grow : ∃ next after leaf,
    smallDisk.create (fun _ => 0) [47, 97] = some (0, next) ∧
      Reachable 2796203 next ∧ Represents next after ∧ after.entries = [leaf] ∧
      leaf.name = [97] ∧ leaf.parent = 0 ∧ leaf.inode ≠ 0 ∧ leaf.block ≠ 0 ∧
      after.resolve [[97]] = some leaf ∧ next.info = getMetadataInfo 2796203 := by
  have hcreatable := smallDisk_creatable
  obtain ⟨n, hleads, hroom⟩ := hcreatable.parent
  obtain ⟨reached, hreached, rfl⟩ :=
    hleads.resolve smallDisk_represents (NameTree.root_mem _) rfl (by decide)
  obtain rfl := Option.some.inj hreached
  have hfound := smallDisk_represents.findPathBlock_locate hcreatable.absolute
  have hpath : parsePath [47, 97] = [] ++ [[97]] := rfl
  obtain ⟨next, after, leaf, hcreate, hnext, hentries, hname, hup, hinode, hblock,
    hresolve, hinfo⟩ := smallDisk_represents.grow hpath rfl rfl hfound (by decide)
      (by decide) (by decide) hroom hcreatable.inode hcreatable.block (fun _ => 0)
  have hallowed : Allowed smallDisk [47, 97] :=
    { hcreatable with length := by decide }
  refine ⟨next, after, leaf, hcreate, .create _ smallDisk_reachable hallowed hcreate,
    hnext, hentries, hname, hup, ?_, ?_, (hresolve _).trans (if_pos rfl),
    hinfo.trans (sfsInit_info _ _ _ _ _)⟩
  · rintro heq
    exact hinode (by rw [heq]; decide)
  · rintro heq
    exact hblock (by rw [heq]; decide)

theorem Represents.creatable_under {fs : FileSystem} {tree : NameTree} {leaf : Entry}
    (h : Represents fs tree) (hinfo : fs.info = getMetadataInfo 2796203)
    (hentries : tree.entries = [leaf]) (hup : leaf.parent = 0) (hinode : leaf.inode ≠ 0)
    (hresolve : tree.resolve [[97]] = some leaf) {path : List UInt8} (hpath : Absolute path)
    (hnonempty : ∀ name ∈ parsePath path, name ≠ [])
    (hfolders : (parsePath path).dropLast = [[97]]) : Creatable fs path := by
  have hinodes : ∃ i : Int, (0 ≤ i ∧ i < 3) ∧ i ∉ tree.nodes.map Entry.inode := by
    rw [NameTree.nodes, hentries]
    rcases Classical.em (leaf.inode = 1) with heq | hne
    · exact ⟨2, by decide, by simp [heq, Entry.root]⟩
    · exact ⟨1, by decide, by simp [Ne.symm hne, Entry.root]⟩
  have hblocks : ∃ d : Int, (0 ≤ d ∧ d < 3) ∧ d ∉ tree.nodes.map Entry.block := by
    rw [NameTree.nodes, hentries]
    rcases Classical.em (leaf.block = 1) with heq | hne
    · exact ⟨2, by decide, by simp [heq, Entry.root]⟩
    · exact ⟨1, by decide, by simp [Ne.symm hne, Entry.root]⟩
  obtain ⟨i, hi, hfree⟩ := hinodes
  obtain ⟨d, hd, hfree'⟩ := hblocks
  refine h.creatable hinfo hpath hnonempty (hfolders.symm ▸ hresolve) ?_ hi hd hfree hfree'
  intro entry hentry
  rw [hentries, List.mem_singleton] at hentry
  rw [hentry, hup]
  exact Ne.symm hinode

/-- After `create("/a")`, the search for `"/a/b"` ends at `a`, and `create("/a/b")` puts
a leaf under it. -/
theorem name_space_refines_tree_grown : ∃ fs,
    smallDisk.create (fun _ => 0) [47, 97] = some (0, fs) ∧
      ∃ tree entry, Represents fs tree ∧ tree.resolve [[97]] = some entry ∧
        (fs.findPathBlock [47, 97, 47, 98]).1 = fs.entryBlock entry.block ∧
          ∃ next after leaf, fs.create (fun _ => 0) [47, 97, 47, 98] = some (0, next) ∧
            Represents next after ∧ after.entries = leaf :: tree.entries ∧
              leaf.parent = entry.inode ∧ after.resolve [[97]] = some entry ∧
                after.resolve [[97], [98]] = some leaf := by
  obtain ⟨fs, small, leaf, hcreate, hreach, htree, hentries, hname, hup, hinode, -, hresolve,
    hinfo⟩ := smallDisk_grow
  have hpath : parsePath [47, 97, 47, 98] = [[97]] ++ [[98]] := rfl
  have hcreatable : Creatable fs [47, 97, 47, 98] :=
    htree.creatable_under hinfo hentries hup hinode hresolve ⟨rfl, by decide⟩ (by decide) rfl
  have hallowed : Allowed fs [47, 97, 47, 98] :=
    { hcreatable with length := by decide }
  obtain ⟨tree, hagain, hlookup, hcreates⟩ := name_space_refines_tree smallDisk_covered hreach
  have hsame : ∀ names, (∀ name ∈ names, 0 ∉ name) →
      (tree.resolve names ≠ none ↔ small.resolve names ≠ none) :=
    fun names hnul => (hagain.resolves_iff hnul).symm.trans (htree.resolves_iff hnul)
  obtain ⟨entry, hentry⟩ := Option.ne_none_iff_exists'.mp
    ((hsame [[97]] (by decide)).mpr (by rw [hresolve]; exact Option.some_ne_none leaf))
  have hnew : tree.resolve ([[97]] ++ [[98]]) = none := by
    refine Classical.not_not.mp fun hold => (hsame _ (by decide)).mp hold ?_
    rw [NameTree.resolve_concat, hresolve, Option.bind_some, NameTree.child, hentries,
      List.find?_singleton, if_neg]
    simp [hup, Ne.symm hinode]
  have hfound : (fs.findPathBlock [47, 97, 47, 98]).1 = fs.entryBlock entry.block := by
    obtain ⟨found, ⟨before, hbefore, hreached, hlongest⟩, hblock⟩ :=
      hlookup [47, 97, 47, 98] ⟨rfl, by decide⟩
    rw [hpath] at hbefore hlongest
    rcases List.prefix_concat_iff.mp hbefore with rfl | hshort
    · rw [hnew] at hreached
      cases hreached
    · have hup := hlongest [[97]] (List.prefix_append _ _)
        (by rw [hentry]; exact Option.some_ne_none entry)
      obtain rfl := hshort.eq_of_length (Nat.le_antisymm hshort.length_le hup.length_le)
      obtain rfl := Option.some.inj (hentry.symm.trans hreached)
      exact hblock
  obtain ⟨result, next, hresult, hcreated⟩ := hcreates (fun _ => 0) _ hallowed
  cases hcreated with
  | kept hdisk _ =>
      -- no entry is called `b` yet
      have hrefused := (refuses_iff htree ⟨rfl, by decide⟩ rfl (fun _ => 0)).mp
        ⟨next, hresult, hdisk.disk⟩
      have hmem := small.locate_mem (parsePath [47, 97, 47, 98])
      rw [NameTree.nodes, hentries] at hmem
      rcases List.mem_pair.mp hmem with heq | heq
      · rw [heq] at hrefused
        cases hrefused
      · rw [heq, hname] at hrefused
        cases hrefused
  | @grown _ after new parent folders hnext hnewEntries hnewPath hparent hnewUp _ _ hkept =>
      obtain ⟨hfolders, -⟩ := List.append_inj' (hpath.symm.trans hnewPath) rfl
      rw [← hfolders, hentry] at hparent
      obtain rfl := Option.some.inj hparent
      refine ⟨fs, hcreate, tree, entry, hagain, hentry, hfound, next, after, new, hresult,
        hnext, hnewEntries, hnewUp, ?_, ?_⟩
      · rw [hkept, if_neg (by decide)]
        exact hentry
      · rw [hkept]
        exact if_pos hpath.symm

/-- After `create("/a")`, `create("/a/a")` is refused although it is new. -/
theorem create_refuses_namesake : ∃ fs, Reachable 2796203 fs ∧
    smallDisk.create (fun _ => 0) [47, 97] = some (0, fs) ∧
      Creatable fs [47, 97, 47, 97] ∧
        ¬ Recognises fs (fun _ => 0) [47, 97, 47, 97] := by
  obtain ⟨fs, tree, leaf, hcreate, hreach, htree, hentries, hname, hup, hinode, hblock,
    hresolve, hinfo⟩ := smallDisk_grow
  have hcreatable : Creatable fs [47, 97, 47, 97] :=
    htree.creatable_under hinfo hentries hup hinode hresolve ⟨rfl, by decide⟩ (by decide) rfl
  refine ⟨fs, hreach, hcreate, hcreatable, ?_⟩
  rw [recognises_iff htree hcreatable]
  rintro (hold | hdistinguishable)
  · rw [htree.resolves_iff (by decide)] at hold
    apply hold
    change tree.resolve ([[97]] ++ [[97]]) = none
    rw [NameTree.resolve_concat, hresolve, Option.bind_some]
    rw [NameTree.child, hentries, List.find?_singleton, if_neg]
    simp [hup, Ne.symm hinode]
  · exact hdistinguishable.parent rfl

theorem create_recognises_iff_first : Recognises smallDisk (fun _ => 0) [47, 97] :=
  (create_recognises_iff smallDisk_covered smallDisk_reachable smallDisk_creatable
    (fun _ => 0)).mpr (Or.inr ⟨by decide, by decide⟩)

/-- `create("/a/b")` on the formatted disk puts `b` into the root directory. -/
theorem create_misplaces : Reachable 2796203 smallDisk ∧
    ¬ Resolves smallDisk (parsePath [47, 97, 47, 98]).dropLast ∧
      ¬ Refuses smallDisk (fun _ => 0) [47, 97, 47, 98] := by
  refine ⟨smallDisk_reachable, ?_, ?_⟩
  · rw [smallDisk_represents.resolves_iff (by decide)]
    exact fun hsome => hsome rfl
  · rw [refuses_iff smallDisk_represents ⟨rfl, by decide⟩ rfl]
    decide

/-- After `create("/a")`, `create("/a/b/a")` is refused. -/
theorem create_missing_iff_namesake : ∃ fs, Reachable 2796203 fs ∧
    Refuses fs (fun _ => 0) [47, 97, 47, 98, 47, 97] := by
  obtain ⟨fs, tree, leaf, -, hreach, htree, hentries, -, hup, hinode, -, hresolve, -⟩ :=
    smallDisk_grow
  have hdead : ∀ name, tree.resolve [[97], name] = none := by
    intro name
    change tree.resolve ([[97]] ++ [name]) = none
    rw [NameTree.resolve_concat, hresolve, Option.bind_some, NameTree.child, hentries,
      List.find?_singleton, if_neg]
    simp [hup, Ne.symm hinode]
  have hmissing : tree.resolve [[97], [98]] = none := hdead [98]
  have hparent : ¬ Resolves fs (parsePath [47, 97, 47, 98, 47, 97]).dropLast := by
    rw [htree.resolves_iff (by decide)]
    exact fun hsome => hsome hmissing
  refine ⟨fs, hreach, ?_⟩
  rw [create_missing_iff smallDisk_covered hreach ⟨rfl, by decide⟩ (by decide) hparent]
  refine ⟨[], [97], rfl, by decide, ?_, ?_⟩
  · rw [htree.resolves_iff (by decide)]
    intro hnone
    cases hnone.symm.trans hresolve
  · intro longer hlonger hexists
    rw [htree.resolves_iff fun name hname =>
      nul_not_mem_parsePath ⟨rfl, by decide⟩ (hlonger.subset hname)] at hexists
    change longer <+: [[97], [98], [97]] at hlonger
    rcases List.prefix_cons_iff.mp hlonger with rfl | ⟨rest, rfl, hrest⟩
    · exact List.nil_prefix
    · rcases List.prefix_cons_iff.mp hrest with rfl | ⟨others, rfl, -⟩
      · exact List.prefix_refl _
      · refine absurd ?_ hexists
        change tree.resolveFrom .root ([[97], [98]] ++ others) = none
        rw [NameTree.resolveFrom_append]
        rw [NameTree.resolve] at hmissing
        rw [hmissing]
        rfl

end RutgersOS.Sfs
