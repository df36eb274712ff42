import Mathlib.Data.List.Induction
import Mathlib.Data.List.Nodup

namespace RutgersOS.Sfs

/-! The name space that the disk stands for: a finite tree, grown leaf by leaf.
Each entry names its parent, so the edges need no separate record. -/

structure Entry where
  inode : Int
  block : Int
  parent : Int
  name : List UInt8

def Entry.root : Entry where
  inode := 0
  block := 0
  parent := 0
  name := []

/-- Every entry hangs below the root or an older entry. -/
def Rooted : List Entry → Prop
  | [] => True
  | entry :: older =>
      (∃ parent ∈ Entry.root :: older, entry.parent = parent.inode) ∧ Rooted older

structure NameTree where
  /-- The entries but the root, newest first. -/
  entries : List Entry
  rooted : Rooted entries
  inodes : ((Entry.root :: entries).map Entry.inode).Nodup
  blocks : ((Entry.root :: entries).map Entry.block).Nodup
  names : (entries.map fun entry => (entry.parent, entry.name)).Nodup

namespace NameTree

def empty : NameTree where
  entries := []
  rooted := trivial
  inodes := List.nodup_singleton _
  blocks := List.nodup_singleton _
  names := List.nodup_nil

def nodes (tree : NameTree) : List Entry :=
  Entry.root :: tree.entries

def child (tree : NameTree) (parent : Int) (name : List UInt8) : Option Entry :=
  tree.entries.find? fun entry => entry.parent = parent ∧ entry.name = name

/-- The entry that a list of components names, from an entry on. -/
def resolveFrom (tree : NameTree) (entry : Entry) :
    List (List UInt8) → Option Entry
  | [] => some entry
  | name :: rest =>
      (tree.child entry.inode name).bind fun next => tree.resolveFrom next rest

def resolve (tree : NameTree) (names : List (List UInt8)) : Option Entry :=
  tree.resolveFrom .root names

def locateFrom (tree : NameTree) (entry : Entry) : List (List UInt8) → Entry
  | [] => entry
  | name :: rest =>
      match tree.child entry.inode name with
      | some next => tree.locateFrom next rest
      | none => entry

def locate (tree : NameTree) (names : List (List UInt8)) : Entry :=
  tree.locateFrom .root names

theorem root_mem (tree : NameTree) : Entry.root ∈ tree.nodes :=
  List.mem_cons_self

theorem mem_nodes {tree : NameTree} {entry : Entry} (h : entry ∈ tree.entries) :
    entry ∈ tree.nodes :=
  List.mem_cons_of_mem _ h

theorem inode_inj {tree : NameTree} {first second : Entry}
    (hfirst : first ∈ tree.nodes) (hsecond : second ∈ tree.nodes)
    (h : first.inode = second.inode) : first = second :=
  List.inj_on_of_nodup_map tree.inodes hfirst hsecond h

theorem root_not_mem (tree : NameTree) : Entry.root ∉ tree.entries := by
  intro hmem
  have hinodes := tree.inodes
  rw [List.map_cons, List.nodup_cons] at hinodes
  exact hinodes.1 (List.mem_map_of_mem hmem)

theorem child_mem {tree : NameTree} {parent : Int} {name : List UInt8}
    {entry : Entry} (h : tree.child parent name = some entry) :
    entry ∈ tree.entries ∧ entry.parent = parent ∧ entry.name = name := by
  refine ⟨List.mem_of_find?_eq_some h, ?_⟩
  simpa using List.find?_some h

theorem child_eq_some {tree : NameTree} {entry : Entry}
    (h : entry ∈ tree.entries) :
    tree.child entry.parent entry.name = some entry := by
  cases hchild : tree.child entry.parent entry.name with
  | none =>
      have hnone := List.find?_eq_none.mp hchild entry h
      simp at hnone
  | some other =>
      obtain ⟨hmem, hparent, hname⟩ := child_mem hchild
      rw [List.inj_on_of_nodup_map tree.names hmem h
        (Prod.ext hparent hname)]

theorem child_eq_none {tree : NameTree} {parent : Int} {name : List UInt8}
    (h : tree.child parent name = none) {entry : Entry}
    (hmem : entry ∈ tree.entries) (hparent : entry.parent = parent) :
    entry.name ≠ name := by
  rintro rfl
  subst hparent
  rw [child_eq_some hmem] at h
  cases h

theorem rooted_parent {entries : List Entry} (h : Rooted entries)
    {entry : Entry} (hmem : entry ∈ entries) :
    ∃ parent ∈ Entry.root :: entries, entry.parent = parent.inode := by
  induction entries with
  | nil => cases hmem
  | cons newest older ih =>
      have hwider : ∀ parent ∈ Entry.root :: older,
          parent ∈ Entry.root :: newest :: older := by
        intro parent hparent
        rcases List.mem_cons.mp hparent with rfl | hold
        · exact List.mem_cons_self
        · exact List.mem_cons_of_mem _ (List.mem_cons_of_mem _ hold)
      rcases List.mem_cons.mp hmem with rfl | hold
      · obtain ⟨parent, hparent, heq⟩ := h.1
        exact ⟨parent, hwider parent hparent, heq⟩
      · obtain ⟨parent, hparent, heq⟩ := ih h.2 hold
        exact ⟨parent, hwider parent hparent, heq⟩

theorem resolveFrom_append (tree : NameTree) (before after : List (List UInt8)) :
    ∀ entry, tree.resolveFrom entry (before ++ after) =
      (tree.resolveFrom entry before).bind fun reached =>
        tree.resolveFrom reached after := by
  induction before with
  | nil => exact fun _ => rfl
  | cons name before ih =>
      intro entry
      rw [List.cons_append, resolveFrom, resolveFrom, Option.bind_assoc]
      exact congrArg _ (funext fun next => ih next)

theorem resolve_concat (tree : NameTree) (names : List (List UInt8))
    (name : List UInt8) :
    tree.resolve (names ++ [name]) =
      (tree.resolve names).bind fun parent => tree.child parent.inode name := by
  rw [resolve, resolveFrom_append]
  refine congrArg _ (funext fun parent => ?_)
  simp only [resolveFrom]
  exact Option.bind_fun_some _

theorem resolveFrom_mem {tree : NameTree} {names : List (List UInt8)} :
    ∀ {entry reached : Entry}, entry ∈ tree.nodes →
      tree.resolveFrom entry names = some reached → reached ∈ tree.nodes := by
  induction names with
  | nil =>
      intro entry reached hentry h
      obtain rfl := Option.some.inj h
      exact hentry
  | cons name rest ih =>
      intro entry reached _ h
      obtain ⟨next, hchild, hrest⟩ := Option.bind_eq_some_iff.mp h
      exact ih (mem_nodes (child_mem hchild).1) hrest

theorem resolve_mem {tree : NameTree} {names : List (List UInt8)}
    {reached : Entry} (h : tree.resolve names = some reached) :
    reached ∈ tree.nodes :=
  resolveFrom_mem tree.root_mem h

theorem resolve_inj {tree : NameTree} {first : List (List UInt8)} :
    ∀ {second : List (List UInt8)} {reached : Entry},
      tree.resolve first = some reached → tree.resolve second = some reached →
        first = second := by
  induction first using List.reverseRecOn with
  | nil =>
      intro second reached hfirst hsecond
      obtain rfl := Option.some.inj hfirst
      rcases List.eq_nil_or_concat second with rfl | ⟨others, name, rfl⟩
      · rfl
      · rw [List.concat_eq_append, resolve_concat] at hsecond
        obtain ⟨parent, -, hchild⟩ := Option.bind_eq_some_iff.mp hsecond
        exact absurd (child_mem hchild).1 tree.root_not_mem
  | append_singleton names name ih =>
      intro second reached hfirst hsecond
      rw [resolve_concat] at hfirst
      obtain ⟨parent, hparent, hchild⟩ := Option.bind_eq_some_iff.mp hfirst
      obtain ⟨hmem, hup, hname⟩ := child_mem hchild
      rcases List.eq_nil_or_concat second with rfl | ⟨others, last, rfl⟩
      · obtain rfl := Option.some.inj hsecond
        exact absurd hmem tree.root_not_mem
      · rw [List.concat_eq_append, resolve_concat] at hsecond
        obtain ⟨other, hother, hchild'⟩ := Option.bind_eq_some_iff.mp hsecond
        obtain ⟨-, hup', hname'⟩ := child_mem hchild'
        have hsame := inode_inj (resolve_mem hparent) (resolve_mem hother)
          (hup.symm.trans hup')
        subst hsame
        rw [List.concat_eq_append, ih hparent hother, ← hname, hname']

/-- `locate` stops at the longest prefix that names an entry. -/
theorem locateFrom_longest (tree : NameTree) (names : List (List UInt8)) :
    ∀ entry, ∃ before after, names = before ++ after ∧
      tree.resolveFrom entry before = some (tree.locateFrom entry names) ∧
        ∀ name rest, after = name :: rest →
          tree.resolveFrom entry (before ++ [name]) = none := by
  induction names with
  | nil =>
      intro entry
      exact ⟨[], [], rfl, rfl, nofun⟩
  | cons name rest ih =>
      intro entry
      cases hchild : tree.child entry.inode name with
      | none =>
          refine ⟨[], name :: rest, rfl, ?_, ?_⟩
          · simp only [locateFrom, hchild]
            rfl
          · intro first others heq
            obtain ⟨rfl, rfl⟩ := List.cons.inj heq
            simp [resolveFrom, hchild]
      | some next =>
          obtain ⟨before, after, rfl, hreached, hstuck⟩ := ih next
          refine ⟨name :: before, after, rfl, ?_, ?_⟩
          · simp only [locateFrom, resolveFrom, hchild, Option.bind_some]
            exact hreached
          · intro first others heq
            rw [List.cons_append, resolveFrom, hchild, Option.bind_some]
            exact hstuck first others heq

/-- The entry is at the longest prefix of the names that exists in the tree. -/
def IsLongestPrefix (tree : NameTree) (names : List (List UInt8))
    (entry : Entry) : Prop :=
  ∃ before, before <+: names ∧ tree.resolve before = some entry ∧
    ∀ longer, longer <+: names → tree.resolve longer ≠ none → longer <+: before

theorem locate_isLongestPrefix (tree : NameTree) (names : List (List UInt8)) :
    tree.IsLongestPrefix names (tree.locate names) := by
  obtain ⟨before, after, rfl, hreached, hstuck⟩ :=
    tree.locateFrom_longest names .root
  refine ⟨before, List.prefix_append _ _, hreached, ?_⟩
  intro longer hlonger hexists
  rcases List.prefix_or_prefix_of_prefix hlonger (List.prefix_append before after)
    with hshort | ⟨rest, rfl⟩
  · exact hshort
  · cases rest with
    | nil => exact ⟨[], by simp⟩
    | cons name rest =>
        obtain ⟨others, rfl⟩ := (List.prefix_append_right_inj before).mp hlonger
        refine absurd ?_ hexists
        have hnone := hstuck name (rest ++ others) rfl
        rw [← List.singleton_append, ← List.append_assoc, resolve,
          resolveFrom_append, hnone]
        rfl

theorem locateFrom_of_resolveFrom {tree : NameTree} {names : List (List UInt8)} :
    ∀ {entry reached : Entry}, tree.resolveFrom entry names = some reached →
      ∀ after, tree.locateFrom entry (names ++ after) =
        tree.locateFrom reached after := by
  induction names with
  | nil =>
      intro entry reached h after
      obtain rfl := Option.some.inj h
      rfl
  | cons name rest ih =>
      intro entry reached h after
      obtain ⟨next, hchild, hrest⟩ := Option.bind_eq_some_iff.mp h
      simp only [List.cons_append, locateFrom, hchild]
      exact ih hrest after

theorem locate_mem (tree : NameTree) (names : List (List UInt8)) :
    tree.locate names ∈ tree.nodes := by
  obtain ⟨before, after, -, hreached, -⟩ := tree.locateFrom_longest names .root
  exact resolve_mem hreached

def insert (tree : NameTree) (leaf : Entry)
    (hparent : ∃ parent ∈ tree.nodes, leaf.parent = parent.inode)
    (hinode : leaf.inode ∉ tree.nodes.map Entry.inode)
    (hblock : leaf.block ∉ tree.nodes.map Entry.block)
    (hname : tree.child leaf.parent leaf.name = none) : NameTree where
  entries := leaf :: tree.entries
  rooted := ⟨hparent, tree.rooted⟩
  inodes :=
    (List.Perm.swap _ _ _).nodup_iff.mpr (List.nodup_cons.mpr ⟨hinode, tree.inodes⟩)
  blocks :=
    (List.Perm.swap _ _ _).nodup_iff.mpr (List.nodup_cons.mpr ⟨hblock, tree.blocks⟩)
  names := by
    rw [List.map_cons, List.nodup_cons]
    refine ⟨?_, tree.names⟩
    intro hmem
    obtain ⟨entry, hentry, heq⟩ := List.mem_map.mp hmem
    obtain ⟨hup, hsame⟩ := Prod.mk.inj heq
    exact child_eq_none hname hentry hup hsame

section Insert

variable {tree after : NameTree} {leaf : Entry}
  (hentries : after.entries = leaf :: tree.entries)

include hentries

theorem child_insert (parent : Int) (name : List UInt8) :
    after.child parent name =
      if leaf.parent = parent ∧ leaf.name = name then some leaf
      else tree.child parent name := by
  rw [child, hentries, List.find?_cons]
  split
  · next h => rw [if_pos (by simpa using h)]
  · next h =>
      rw [if_neg (by simpa using h)]
      rfl

theorem mem_nodes_insert {entry : Entry} :
    entry ∈ after.nodes ↔ entry = leaf ∨ entry ∈ tree.nodes := by
  rw [nodes, hentries, nodes, List.mem_cons, List.mem_cons, List.mem_cons]
  exact or_left_comm

theorem mem_map_insert (field : Entry → Int) {n : Int} :
    n ∈ after.nodes.map field ↔ n = field leaf ∨ n ∈ tree.nodes.map field := by
  simp only [List.mem_map, mem_nodes_insert hentries]
  constructor
  · rintro ⟨entry, rfl | hentry, heq⟩
    · exact Or.inl heq.symm
    · exact Or.inr ⟨entry, hentry, heq⟩
  · rintro (heq | ⟨entry, hentry, heq⟩)
    · exact ⟨leaf, Or.inl rfl, heq.symm⟩
    · exact ⟨entry, Or.inr hentry, heq⟩

/-- The new leaf is at its own path, and no other path resolves differently. -/
theorem resolve_insert {names : List (List UInt8)} {parent : Entry}
    (hparent : tree.resolve names = some parent)
    (hleaf : leaf.parent = parent.inode)
    (hname : tree.child leaf.parent leaf.name = none)
    (hinode : leaf.inode ∉ tree.nodes.map Entry.inode)
    (path : List (List UInt8)) :
    after.resolve path =
      if path = names ++ [leaf.name] then some leaf else tree.resolve path := by
  have hup : leaf.parent ≠ leaf.inode := by
    intro heq
    apply hinode
    rw [← heq, hleaf]
    exact List.mem_map_of_mem (resolve_mem hparent)
  have hbare : ∀ name, after.child leaf.inode name = none := by
    intro name
    rw [child_insert hentries, if_neg fun h => hup h.1]
    cases hchild : tree.child leaf.inode name with
    | none => rfl
    | some entry =>
        obtain ⟨hmem, hentry, -⟩ := child_mem hchild
        obtain ⟨above, habove, heq⟩ := rooted_parent tree.rooted hmem
        refine absurd ?_ hinode
        rw [← hentry, heq]
        exact List.mem_map_of_mem habove
  have hfresh : tree.resolve (names ++ [leaf.name]) = none := by
    rw [resolve_concat, hparent, Option.bind_some, ← hleaf, hname]
  induction path using List.reverseRecOn with
  | nil =>
      rw [if_neg (by simp)]
      rfl
  | append_singleton path name ih =>
      rw [resolve_concat, ih]
      rcases Classical.em (path = names ++ [leaf.name]) with rfl | hpath
      · -- nothing is below the new leaf
        rw [if_pos rfl, Option.bind_some, hbare, if_neg (by simp),
          resolve_concat, hfresh]
        rfl
      · rw [if_neg hpath]
        rcases Classical.em (path ++ [name] = names ++ [leaf.name]) with
          heq | hne
        · obtain ⟨rfl, hlast⟩ := List.append_inj' heq rfl
          obtain rfl := List.singleton_inj.mp hlast
          rw [if_pos rfl, hparent, Option.bind_some, child_insert hentries,
            if_pos ⟨hleaf, rfl⟩]
        · rw [if_neg hne, resolve_concat]
          cases hreached : tree.resolve path with
          | none => rfl
          | some reached =>
              rw [Option.bind_some, Option.bind_some, child_insert hentries]
              apply if_neg
              rintro ⟨hsame, rfl⟩
              have hup' := inode_inj (resolve_mem hreached) (resolve_mem hparent)
                (hsame.symm.trans hleaf)
              subst hup'
              exact hne (by rw [resolve_inj hreached hparent])

end Insert

end NameTree

end RutgersOS.Sfs
