import RutgersOS.Assignment2.UserHeap

namespace RutgersOS.Assignment2.Paging

open RutgersOS.Memory RutgersOS.Pthread

def headerPage (left : List Block) : Nat :=
  pageOf (total left)

def footerPage (left : List Block) (block : Block) (size : Nat) : Nat :=
  if Allocator.extendedSize size + 12 ≤ block.size then
    pageOf (total left + Allocator.extendedSize size - 4)
  else pageOf (total left + block.size - 4)

def restPage (left : List Block) (block : Block) (size : Nat) : Nat :=
  if Allocator.extendedSize size + 12 ≤ block.size then
    pageOf (total left + Allocator.extendedSize size)
  else footerPage left block size

def Quiet (s : Paging) (c low high : Nat) : Prop :=
  ∀ k, low ≤ k → k ≤ high → s.place (c, k) = none → s.masterTable k = false

/-- The pages from `low` to `rest` can be put in place.  The tags in `footer` and `rest`
are written first: into a page of the running thread, into a frame that no page is or will
be in, or after a fault. -/
structure Claimable (s : Paging) (c low footer rest : Nat) : Prop where
  pages : ∀ k, low ≤ k → k ≤ rest → s.Own c k ∨ s.place (c, k) = none ∧
    (s.Reserved (s.Quiet c low rest) (footer + 3 - low) k ∨ s.StaleFree k)
  footerTag : s.Own c footer ∨ s.Reserved (s.Quiet c low rest) (footer + 3 - low) footer ∨
    s.accessible footer = false ∧ s.LastFree footer
  restTag : rest = footer ∨ s.Own c rest ∨ s.accessible rest = false ∧
    (s.LastFree rest ∨ s.Reserved (s.Quiet c low rest) (footer + 3 - low) rest)
  roomy : s.Quiet c low rest ∨ s.Roomy (footer + 3 - low)

theorem Claimable.ready {s : Paging} {c low footer rest k : Nat}
    (h : s.Claimable c low footer rest) (hlow : low ≤ k) (hhigh : k ≤ rest) :
    s.Ready (s.Quiet c low rest) c (footer + 3 - low) k := by
  refine (h.pages k hlow hhigh).imp_right fun ⟨habsent, hcase⟩ => ⟨habsent, ?_⟩
  rcases Classical.em (s.Quiet c low rest) with hquiet | hloud
  · exact Or.inl ⟨hquiet k hlow hhigh habsent, Or.inl hquiet⟩
  · exact hcase.imp_right fun hstale => ⟨hloud, hstale⟩

/-- What the call needs of the tables when it finds `block`. -/
structure Placeable (s : Paging) (c size : Nat) (left : List Block) (block : Block) :
    Prop where
  tail : s.accessible (pageOf (total left + block.size - 4)) = true
  pages : s.Claimable c (headerPage left) (footerPage left block size)
    (restPage left block size)

theorem setValue_cases {s next : Paging} {x size allocation : Int}
    (h : s.setValue x size allocation = some next) : ∃ mid, s.touchWord x = some mid ∧
      next = { mid with memory := mid.memory.store x (tagWord size allocation) } := by
  obtain ⟨mid, hmid, heq⟩ := Option.bind_eq_some_iff.mp h
  exact ⟨mid, hmid, (Option.some.inj heq).symm⟩

theorem getHeader_block (start : Int) : getHeader (start + hdrSize) = start := by
  simp only [getHeader, hdrSize]
  omega

theorem getSize_block {s : Paging} {start : Int} (hword : UserWord start)
    (hopen : s.accessible (pageOf start) = true) :
    s.getSize (start + hdrSize) = some (wordSize (s.memory.load start), s) := by
  have hheader := getHeader_block start
  rw [← hheader] at hword hopen
  rw [getSize_open hword hopen, hheader]

theorem getFooter_block {s : Paging} {start size : Int} (hword : UserWord start)
    (hopen : s.accessible (pageOf start) = true)
    (hsize : wordSize (s.memory.load start) = size) :
    s.getFooter (start + hdrSize) = some (start + size - 4, s) := by
  have hfooter : start + hdrSize + size - 2 * hdrSize = start + size - 4 := by
    simp only [hdrSize]
    omega
  rw [getFooter, getSize_block hword hopen, hsize, ← hfooter]
  rfl

/-- A page that a tag can be written to in time. -/
def Shut (s : Paging) (quiet : Prop) (c n k : Nat) : Prop :=
  s.Own c k ∨ s.accessible k = false ∧ (s.LastFree k ∨ s.Reserved quiet n k)

theorem Shut.less {s : Paging} {quiet : Prop} {c n k : Nat} (h : s.Shut quiet c (n + 1) k) :
    s.Shut quiet c n k :=
  h.imp_right fun hclosed => ⟨hclosed.1, hclosed.2.imp_right Reserved.less⟩

theorem Gained.shut {quiet : Prop} {s next : Paging} {c f n k : Nat}
    (h : Gained quiet s next c f)
    (hframed : Framed s.place s.masterTable fun _ => False)
    (hlast : s.masterTable f = true → s.LastFree f) (hk : s.Shut quiet c (n + 1) k) :
    next.Shut quiet c n k := by
  rcases Classical.em (k = f) with rfl | hne
  · exact Or.inl ⟨h.placed, h.access⟩
  · rcases hk with hown | ⟨hclosed, hcase⟩
    · exact Or.inl (h.own hframed hown)
    · exact Or.inr ⟨h.closed k hne hclosed, hcase.imp (h.lasts hlast k hne) (h.reserved hne)⟩

/-- A tag of the new blocks is in the block that is handed out, or was one before. -/
theorem tagAt_placed {left placed right : List Block} {block : Block} {x : Int} {final : Prop}
    (htotal : total placed = block.size)
    (hx : (tagAt Allocator.tagCodec 0 (left ++ placed ++ right) x).isSome ∨ final) :
    ((tagAt Allocator.tagCodec 0 (left ++ block :: right) x).isSome ∨ final) ∨
      (tagAt Allocator.tagCodec (total left) placed x).isSome := by
  rcases hx with hx | hfinal
  swap
  · exact Or.inl (Or.inr hfinal)
  rw [tagAt_append, tagAt_append, Option.isSome_or, Option.isSome_or, Bool.or_eq_true,
    Bool.or_eq_true, total_append, htotal, Int.zero_add, Int.zero_add] at hx
  rw [tagAt_append, Option.isSome_or, Bool.or_eq_true, Int.zero_add]
  rcases hx with (hleft | hplaced) | hright
  · exact Or.inl (Or.inl (Or.inl hleft))
  · exact Or.inr hplaced
  · left
    left
    right
    rw [tagAt]
    split
    · rfl
    · exact hright

theorem Underway.congr {quiet : Prop} {c n : Nat} {pages : Nat → Prop} {start s : Paging}
    {words words' : Bytes} {tags : Int → Prop}
    (h : Underway quiet c pages start s n words tags) (heq : words = words') :
    Underway quiet c pages start s n words' tags :=
  heq ▸ h

theorem Underway.fewer {quiet : Prop} {c n : Nat} {pages : Nat → Prop} {start s : Paging}
    {words : Bytes} {tags tags' : Int → Prop}
    (h : Underway quiet c pages start s n words tags) (hfewer : ∀ x, tags' x → tags x) :
    Underway quiet c pages start s n words tags' :=
  { h with tagged := fun x hx => h.tagged x (hfewer x hx) }

section Writing

variable {quiet : Prop} {c table n : Nat} {pages : Nat → Prop} {start s next : Paging}
  {words : Bytes} {tags : Int → Prop} (htabled : start.Tabled)
  (hcurrent : start.scheduler.current = some c) (htable : start.tableOf c = some table)

include htabled hcurrent htable

omit htabled hcurrent htable in
theorem Underway.setOwn (h : Underway quiet c pages start s n words tags) {x : Int}
    (hword : UserWord x) (hown : s.Own c (pageOf x)) {size allocation : Int}
    (hset : s.setValue x size allocation = some next) :
    Underway quiet c pages start next n (words.store x (tagWord size allocation))
        (fun y => tags y ∨ y = x) ∧
      (∀ k, s.Shut quiet c n k → next.Shut quiet c n k) ∧
      ∀ k, s.Reserved quiet n k → next.Reserved quiet n k := by
  rw [setValue_open hword hown.2] at hset
  obtain rfl := Option.some.inj hset
  exact ⟨h.write hword (Or.inl hown.1) _, fun _ => id, fun _ => id⟩

theorem Underway.setTag (h : Underway quiet c pages start s (n + 1) words tags) {x : Int}
    (hword : UserWord x) {page : Nat} (hof : page = pageOf x) (hpage : pages page)
    (hready : s.Reserved quiet (n + 1) page ∨ s.Shut quiet c (n + 1) page)
    {size allocation : Int} (hset : s.setValue x size allocation = some next) :
    Underway quiet c pages start next n (words.store x (tagWord size allocation))
        (fun y => tags y ∨ y = x) ∧ (next.Reserved quiet n page ∨ next.Own c page) ∧
      (s.Shut quiet c (n + 1) page → next.Own c page) ∧
      ∀ k, s.Shut quiet c (n + 1) k → next.Shut quiet c n k := by
  subst hof
  obtain ⟨mid, htouch, rfl⟩ := setValue_cases hset
  have hlast : s.accessible (pageOf x) = false → s.masterTable (pageOf x) = true →
      s.LastFree (pageOf x) := by
    intro hclosed hused
    have hnot : ¬ s.Reserved quiet (n + 1) (pageOf x) := fun hreserved => by
      rw [hreserved.1] at hused
      cases hused
    rcases hready.resolve_left hnot with hown | ⟨-, hcase⟩
    · rw [hown.2] at hclosed
      cases hclosed
    · exact hcase.resolve_right hnot
  rcases h.touch htabled hcurrent htable hword hpage hlast htouch with
    ⟨hopen, rfl⟩ | ⟨hclosed, hgained⟩
  · have hheld : mid.Held quiet c n (pageOf x) := by
      rcases hready with hreserved | hown | ⟨hclosed, -⟩
      · exact Or.inr hreserved.less
      · exact Or.inl hown.1
      · rw [hopen] at hclosed
        cases hclosed
    refine ⟨h.less.write hword hheld _, hheld.symm.imp_right fun hplace => ⟨hplace, hopen⟩,
      fun hshut => ?_, fun k hk => hk.less⟩
    rcases hshut with hown | ⟨hclosed, -⟩
    · exact hown
    · rw [hopen] at hclosed
      cases hclosed
  · exact ⟨(h.gain hgained).write hword (Or.inl hgained.placed) _,
      Or.inr ⟨hgained.placed, hgained.access⟩,
      fun _ => ⟨hgained.placed, hgained.access⟩,
      fun k hk => hgained.shut h.owned.framed (hlast hclosed) hk⟩

variable {stop : Int} {left others right : List Block} {first : Block}

theorem Underway.mapAllocated {low high : Nat} {result : Option Int}
    (h : Underway quiet c pages start s (high + 1 - low)
      (paint Allocator.tagCodec start.memory 0 (left ++ (first :: others) ++ right)) tags)
    (hextent : (total (left ++ (first :: others) ++ right) : Int) = stop)
    (hbounded : stop ≤ usrSize)
    (htags : ∀ x, (tagAt Allocator.tagCodec 0 (left ++ (first :: others) ++ right) x).isSome ∨
        x = stop ∧ stop < usrSize →
      tags x ∧ (start.place (c, pageOf x) = some (pageOf x) ∨
        low ≤ pageOf x ∧ pageOf x ≤ high ∨ s.Own c (pageOf x)))
    (hlow : low = pageOf (total left)) (hhigh : high = pageOf (total left + first.size - 4))
    (hown : start.Own c low) (hpages : ∀ k, low ≤ k → k ≤ high → pages k)
    (hend : wordSize (start.memory.load stop) = 0)
    (hmap : s.mapAllocated (total left + hdrSize) = some (result, next)) :
    result = some (total left + hdrSize) ∧
      next.UserHeap c stop (left ++ (first :: others) ++ right) ∧
      (∀ k, low ≤ k → k ≤ high → next.Own c k) ∧
      ∀ t q, t ≠ c → next.logicalMemory (t, q) = start.logicalMemory (t, q) := by
  have hminimal := first.minimal
  have haligned := four_dvd_total left
  have hpainted := tiles_paint Allocator.tagCodec start.memory (Int.dvd_zero 4)
    (left ++ (first :: others) ++ right)
  have hfirst : (tagAt Allocator.tagCodec 0 (left ++ (first :: others) ++ right)
      (total left)).isSome := by
    have hleft : tagAt Allocator.tagCodec 0 left (total left) = none :=
      tagAt_above _ (by omega)
    rw [List.append_assoc, tagAt_append, hleft, Option.none_or, Int.zero_add,
      List.cons_append, tagAt_hit _ (Or.inl rfl)]
    rfl
  obtain ⟨hword, -, hload⟩ := h.tagged _ (htags _ (Or.inl hfirst)).1
  have hsize : wordSize (s.memory.load (total left)) = first.size := by
    rw [hload]
    rw [List.append_assoc, List.cons_append] at hextent hpainted ⊢
    exact (tiles_header (hextent ▸ hbounded) hpainted).1
  have hopen : s.accessible (pageOf (total left)) = true := by
    rw [← hlow]
    exact (h.own low hown).2
  rw [Paging.mapAllocated, getFooter_block hword hopen hsize, Option.bind_eq_bind,
    Option.bind_some] at hmap
  obtain ⟨after, hafter, heq⟩ := Option.bind_eq_some_iff.mp hmap
  obtain ⟨rfl, rfl⟩ := Prod.mk.inj (Option.some.inj heq)
  change s.mapBlock (pageOf (getHeader (total left + hdrSize)))
    (pageOf (total left + first.size - 4)) = some after at hafter
  rw [getHeader_block] at hafter
  rw [← hlow, ← hhigh, mapBlock, h.rewrites.scheduler, hcurrent, Option.bind_eq_bind,
    Option.bind_some, h.rewrites.pageTables, pageTables_of_tableOf htable,
    Option.bind_some] at hafter
  have hle : low ≤ high := by
    rw [hlow, hhigh]
    simp only [pageOf, pageSize]
    omega
  obtain ⟨hunder, hkeeps, hmapped⟩ := Underway.map htabled hcurrent htable (n := 0)
    (high + 1 - low) (by rwa [Nat.zero_add]) (fun k hk hk' => hpages k hk (by omega)) hafter
  have hmapped' : ∀ k, low ≤ k → k ≤ high → after.Own c k := fun k hk hk' =>
    hmapped k hk (by omega)
  refine ⟨rfl, ⟨hextent, hbounded, ?_, ?_, ?_⟩, hmapped', hunder.others⟩
  · rw [tiles_iff]
    intro x word hx
    have hsome := Option.isSome_iff_exists.mpr ⟨word, hx⟩
    rw [(hunder.tagged x (htags x (Or.inl hsome)).1).2.2]
    exact (tiles_iff _).mp hpainted x word hx
  · intro x hx
    rcases (htags x hx).2 with hplace | ⟨hlow', hhigh'⟩ | hown'
    · exact hunder.inPlace _ hplace
    · exact (hmapped' _ hlow' hhigh').1
    · exact (hkeeps _ hown').1
  · -- behind the blocks the word of size 0 stays
    have hword : after.memory.load stop = start.memory.load stop := by
      rcases Int.lt_or_eq_of_le hbounded with hinside | rfl
      · obtain ⟨hword, -, hkept⟩ :=
          hunder.tagged stop (htags stop (Or.inr ⟨rfl, hinside⟩)).1
        rw [hkept, load_paint Allocator.tagCodec _ _ (Int.dvd_zero 4) hword.aligned,
          tagAt_above Allocator.tagCodec (by omega)]
        rfl
      · exact hunder.epilogue
    rw [hword]
    exact hend

end Writing

section Placing

variable {s mid next : Paging} {c table size : Nat} {stop : Int} {left right : List Block}
  {block : Block} (htabled : s.Tabled) (howned : s.Owned) (hcurrent : s.scheduler.current = some c)
  (htable : s.tableOf c = some table) (h : s.UserHeap c stop (left ++ block :: right))
  (hopen : s.accessible (headerPage left) = true) (hplace : s.Placeable c size left block)

include htabled howned hcurrent htable h hopen hplace

/-- The four tags of a split are written, and each is in a page in place or in one that
the mapping loop comes to. -/
theorem split_tags (hsize : size ≠ 0) (hroom : Allocator.extendedSize size + 12 ≤ block.size)
    (hsplit : s.splitBlock (total left + hdrSize) (Allocator.extendedSize size)
      (block.size - Allocator.extendedSize size) = some mid) :
    Underway (s.Quiet c (headerPage left) (restPage left block size)) c
      (fun k => headerPage left ≤ k ∧ k ≤ restPage left block size) s mid
      (footerPage left block size + 1 - headerPage left)
      (paint Allocator.tagCodec s.memory 0 (left ++ [Block.front (Allocator.extendedSize size)
        (Allocator.extendedSize_minimal hsize) (Allocator.extendedSize_aligned size),
        block.rest (Allocator.extendedSize size) (Allocator.extendedSize_aligned size)
          hroom] ++ right))
      (fun x => (tagAt Allocator.tagCodec 0 (left ++ [Block.front (Allocator.extendedSize size)
        (Allocator.extendedSize_minimal hsize) (Allocator.extendedSize_aligned size),
        block.rest (Allocator.extendedSize size) (Allocator.extendedSize_aligned size)
          hroom] ++ right) x).isSome ∨ x = stop ∧ stop < usrSize) ∧
      ∀ x, (tagAt Allocator.tagCodec 0 (left ++ [Block.front (Allocator.extendedSize size)
        (Allocator.extendedSize_minimal hsize) (Allocator.extendedSize_aligned size),
        block.rest (Allocator.extendedSize size) (Allocator.extendedSize_aligned size)
          hroom] ++ right) x).isSome ∨ x = stop ∧ stop < usrSize →
        s.place (c, pageOf x) = some (pageOf x) ∨
          headerPage left ≤ pageOf x ∧ pageOf x ≤ footerPage left block size ∨
            mid.Own c (pageOf x) := by
  obtain ⟨htail, hpages⟩ := hplace
  have hfooterPage : footerPage left block size =
      pageOf (total left + Allocator.extendedSize size - 4) := if_pos hroom
  have hrestPage : restPage left block size =
      pageOf (total left + Allocator.extendedSize size) := if_pos hroom
  have hminimal := Allocator.extendedSize_minimal hsize
  have haligned := Allocator.extendedSize_aligned size
  have hblock := block.aligned
  have hleft := four_dvd_total left
  have hextent := h.extent
  have hfits := h.fits
  rw [total_append, total_cons] at hextent
  have hheadWord := h.word
  have htailWord := h.tail_word
  have hfootWord : UserWord (total left + Allocator.extendedSize size - 4) :=
    ⟨by omega, by omega, by omega⟩
  have hrestWord : UserWord (total left + Allocator.extendedSize size) :=
    ⟨by omega, by omega, by omega⟩
  have horder : headerPage left ≤ footerPage left block size ∧
      footerPage left block size ≤ restPage left block size := by
    rw [hfooterPage, hrestPage]
    simp only [headerPage, pageOf, pageSize]
    omega
  have hn : footerPage left block size + 3 - headerPage left =
      footerPage left block size + 1 - headerPage left + 1 + 1 := by omega
  -- the tags in the old header and footer
  have hstart : Underway (s.Quiet c (headerPage left) (restPage left block size)) c
      (fun k => headerPage left ≤ k ∧ k ≤ restPage left block size) s s
      (footerPage left block size + 3 - headerPage left) _ _ :=
    h.underway howned (fun k hk => hpages.ready hk.1 hk.2) hpages.roomy
  obtain ⟨hfootTag, hrestTag⟩ := And.intro hpages.footerTag hpages.restTag
  rw [hn] at hstart hfootTag hrestTag
  have hheadOwn : s.Own c (headerPage left) := ⟨h.placed.1, hopen⟩
  rw [splitBlock, getFooter_block hheadWord hopen h.header.1, Option.bind_eq_bind,
    Option.bind_some] at hsplit
  obtain ⟨first, hfirst, hthen⟩ := Option.bind_eq_some_iff.mp hsplit
  obtain ⟨hone, hshut, hreserved⟩ := hstart.setOwn htailWord ⟨h.placed.2, htail⟩ hfirst
  obtain ⟨second, hsecond, hlater⟩ := Option.bind_eq_some_iff.mp hthen
  rw [getHeader_block] at hsecond
  obtain ⟨htwo, hshut', hreserved'⟩ := hone.setOwn hheadWord (hone.own _ hheadOwn) hsecond
  obtain ⟨third, hthird, hfourth⟩ := Option.bind_eq_some_iff.mp hlater
  have hfoot : (total left + hdrSize + Allocator.extendedSize size - 2 * hdrSize : Int) =
      total left + Allocator.extendedSize size - 4 := by
    simp only [hdrSize]
    omega
  have hrest : (total left + Allocator.extendedSize size - 4 + 4 : Int) =
      total left + Allocator.extendedSize size := by omega
  rw [hfoot] at hthird hfourth
  rw [hrest] at hfourth
  -- the tag in the new footer
  have hfootReady : second.Reserved (s.Quiet c (headerPage left) (restPage left block size))
      (footerPage left block size + 1 - headerPage left + 1 + 1) (footerPage left block size) ∨
      second.Shut (s.Quiet c (headerPage left) (restPage left block size)) c
        (footerPage left block size + 1 - headerPage left + 1 + 1)
        (footerPage left block size) := by
    rcases hfootTag with hown | hfree | ⟨hclosed, hlast⟩
    · exact Or.inr (hshut' _ (hshut _ (Or.inl hown)))
    · exact Or.inl (hreserved' _ (hreserved _ hfree))
    · exact Or.inr (hshut' _ (hshut _ (Or.inr ⟨hclosed, Or.inl hlast⟩)))
  obtain ⟨hthree, hheld, -, hshut''⟩ := htwo.setTag htabled hcurrent htable hfootWord
    hfooterPage horder hfootReady hthird
  -- the tag in the header of the rest
  have hrestShut : restPage left block size = footerPage left block size ∨
      third.Shut (s.Quiet c (headerPage left) (restPage left block size)) c
        (footerPage left block size + 1 - headerPage left + 1) (restPage left block size) :=
    hrestTag.imp_right fun hshutRest => hshut'' _ (hshut' _ (hshut _ hshutRest))
  have hrestReady : third.Reserved (s.Quiet c (headerPage left) (restPage left block size))
      (footerPage left block size + 1 - headerPage left + 1) (restPage left block size) ∨
      third.Shut (s.Quiet c (headerPage left) (restPage left block size)) c
        (footerPage left block size + 1 - headerPage left + 1) (restPage left block size) := by
    rcases hrestShut with heq | hshutRest
    · rw [heq] at hheld ⊢
      exact hheld.imp_right Or.inl
    · exact Or.inr hshutRest
  obtain ⟨hfour, -, hrestOwn, -⟩ := hthree.setTag htabled hcurrent htable hrestWord
    hrestPage ⟨Nat.le_trans horder.1 horder.2, Nat.le_refl _⟩ hrestReady hfourth
  have htiles : Tiles Allocator.tagCodec s.memory 0 (left ++ [block] ++ right) := by
    simpa using h.tiles
  have hwords := BoundaryTag.half_tags hminimal haligned hroom (Int.dvd_zero 4) htiles
    (Int.zero_add _).symm rfl rfl rfl
  simp only [Int.zero_add] at hwords
  have hwhere : ∀ x, (tagAt Allocator.tagCodec 0 (left ++ [Block.front _ hminimal haligned,
      block.rest _ haligned hroom] ++ right) x).isSome ∨ x = stop ∧ stop < usrSize →
      ((((((tagAt Allocator.tagCodec 0 (left ++ block :: right) x).isSome ∨
        x = stop ∧ stop < usrSize) ∨ x = total left + block.size - 4) ∨ x = total left) ∨
          x = total left + Allocator.extendedSize size - 4) ∨
            x = total left + Allocator.extendedSize size) ∧
        (s.place (c, pageOf x) = some (pageOf x) ∨
          headerPage left ≤ pageOf x ∧ pageOf x ≤ footerPage left block size ∨
            mid.Own c (pageOf x)) := by
    intro x hx
    have hsizes : total [Block.front (Allocator.extendedSize size) hminimal haligned,
        block.rest (Allocator.extendedSize size) haligned hroom] = block.size := by
      simp only [total_cons, total_nil, Block.front_size, Block.rest_size]
      omega
    rcases tagAt_placed hsizes hx with hold | hnew
    · exact ⟨Or.inl (Or.inl (Or.inl (Or.inl hold))), Or.inl (h.inPlace x hold)⟩
    have hend : (total left + Allocator.extendedSize size +
        (block.size - Allocator.extendedSize size : Nat) - 4 : Int) =
        total left + block.size - 4 := by omega
    rcases tagAt_pair Allocator.tagCodec hnew with (rfl | hfoot) | hrest | htail
    · exact ⟨Or.inl (Or.inl (Or.inr rfl)), Or.inl h.placed.1⟩
    · obtain rfl : x = total left + Allocator.extendedSize size - 4 := hfoot
      refine ⟨Or.inl (Or.inr rfl), Or.inr (Or.inl ?_)⟩
      rw [← hfooterPage]
      exact ⟨horder.1, Nat.le_refl _⟩
    · obtain rfl : x = total left + Allocator.extendedSize size := hrest
      refine ⟨Or.inr rfl, Or.inr ?_⟩
      rw [← hrestPage]
      rcases hrestShut with heq | hshutRest
      · exact Or.inl ⟨Nat.le_trans horder.1 horder.2, Nat.le_of_eq heq⟩
      · exact Or.inr (hrestOwn hshutRest)
    · obtain rfl : x = total left + block.size - 4 := htail.trans hend
      exact ⟨Or.inl (Or.inl (Or.inl (Or.inr rfl))), Or.inl h.placed.2⟩
  exact ⟨(hfour.congr hwords).fewer fun x hx => (hwhere x hx).1, fun x hx => (hwhere x hx).2⟩

theorem split_run (hsize : size ≠ 0) (hroom : Allocator.extendedSize size + 12 ≤ block.size)
    {result : Option Int}
    (hsplit : s.splitBlock (total left + hdrSize) (Allocator.extendedSize size)
      (block.size - Allocator.extendedSize size) = some mid)
    (hmap : mid.mapAllocated (total left + hdrSize) = some (result, next)) :
    result = some (total left + hdrSize) ∧
      next.UserHeap c stop (left ++ [Block.front (Allocator.extendedSize size)
        (Allocator.extendedSize_minimal hsize) (Allocator.extendedSize_aligned size),
        block.rest (Allocator.extendedSize size) (Allocator.extendedSize_aligned size)
          hroom] ++ right) ∧
      (∀ k, headerPage left ≤ k → k ≤ footerPage left block size → next.Own c k) ∧
      ∀ t q, t ≠ c → next.logicalMemory (t, q) = s.logicalMemory (t, q) := by
  have hfooterPage : footerPage left block size =
      pageOf (total left + Allocator.extendedSize size - 4) := if_pos hroom
  have hrestPage : restPage left block size =
      pageOf (total left + Allocator.extendedSize size) := if_pos hroom
  have horder : footerPage left block size ≤ restPage left block size := by
    rw [hfooterPage, hrestPage]
    simp only [pageOf, pageSize]
    omega
  have hextent := h.extent
  rw [total_append, total_cons] at hextent
  obtain ⟨htags, hwhere⟩ :=
    split_tags htabled howned hcurrent htable h hopen hplace hsize hroom hsplit
  refine htags.mapAllocated htabled hcurrent htable ?_ h.bounded
    (fun x hx => ⟨hx, hwhere x hx⟩) rfl hfooterPage ⟨h.placed.1, hopen⟩
    (fun k hk hk' => ⟨hk, Nat.le_trans hk' horder⟩) h.epilogue hmap
  simp only [total_append, total_cons, total_nil, Block.front_size, Block.rest_size]
  omega

theorem occupy_run (hfit : Allocator.extendedSize size ≤ block.size)
    (htight : block.size < Allocator.extendedSize size + 12) {result : Option Int}
    (hoccupy : s.occupyBlock (total left + hdrSize) block.size = some mid)
    (hmap : mid.mapAllocated (total left + hdrSize) = some (result, next)) :
    result = some (total left + hdrSize) ∧ next.UserHeap c stop (left ++ [block.take] ++ right) ∧
      (∀ k, headerPage left ≤ k → k ≤ footerPage left block size → next.Own c k) ∧
      ∀ t q, t ≠ c → next.logicalMemory (t, q) = s.logicalMemory (t, q) := by
  obtain ⟨htail, hpages⟩ := hplace
  have hfooterPage : footerPage left block size = pageOf (total left + block.size - 4) :=
    if_neg (by omega)
  have hrestPage : restPage left block size = footerPage left block size :=
    if_neg (by omega)
  have hblock := block.aligned
  have hminimal := block.minimal
  have hleft := four_dvd_total left
  have hextent := h.extent
  have hfits := h.fits
  rw [total_append, total_cons] at hextent
  have hheadWord := h.word
  have htailWord := h.tail_word
  have horder : headerPage left ≤ footerPage left block size := by
    rw [hfooterPage]
    simp only [headerPage, pageOf, pageSize]
    omega
  have hn : footerPage left block size + 3 - headerPage left =
      footerPage left block size + 1 - headerPage left + 1 + 1 := by omega
  have hstart : Underway (s.Quiet c (headerPage left) (restPage left block size)) c
      (fun k => headerPage left ≤ k ∧ k ≤ restPage left block size) s s
      (footerPage left block size + 3 - headerPage left) _ _ :=
    h.underway howned (fun k hk => hpages.ready hk.1 hk.2) hpages.roomy
  rw [hn] at hstart
  have hheadOwn : s.Own c (headerPage left) := ⟨h.placed.1, hopen⟩
  obtain ⟨first, hfirst, hthen⟩ := Option.bind_eq_some_iff.mp hoccupy
  rw [getHeader_block] at hfirst
  obtain ⟨hone, -⟩ := hstart.less.less.setOwn hheadWord hheadOwn hfirst
  -- the size in the header is the old one
  have hsize : wordSize (first.memory.load (total left)) = block.size := by
    rw [(hone.tagged _ (Or.inr rfl)).2.2, Bytes.load_store_same]
    have hsmall : (block.size : Int) < Allocator.tagCodec.limit := by
      simp only [usrSize] at hfits
      change (block.size : Int) < 2 ^ 30
      omega
    exact Allocator.tagCodec.size_encode _ _ (by omega) hsmall (by omega) (Or.inr rfl)
  rw [getFooter_block hheadWord (hone.own _ hheadOwn).2 hsize, Option.bind_eq_bind,
    Option.bind_some] at hthen
  obtain ⟨htwo, -⟩ := hone.setOwn htailWord (hone.own _ ⟨h.placed.2, htail⟩) hthen
  have htiles : Tiles Allocator.tagCodec s.memory 0 (left ++ [block] ++ right) := by
    simpa using h.tiles
  have hwords := BoundaryTag.take_tags (Int.dvd_zero 4) htiles (Int.zero_add _).symm rfl
  simp only [Int.zero_add] at hwords
  refine (htwo.congr hwords).mapAllocated htabled hcurrent htable ?_ h.bounded ?_ rfl
    hfooterPage hheadOwn (fun k hk hk' => ⟨hk, hrestPage ▸ hk'⟩) h.epilogue hmap
  · simp only [total_append, total_cons, total_nil, Block.take_size]
    omega
  · intro x hx
    have hsizes : total [block.take] = block.size := rfl
    rcases tagAt_placed hsizes hx with hold | hnew
    · exact ⟨Or.inl (Or.inl hold), Or.inl (h.inPlace x hold)⟩
    · rw [tagAt] at hnew
      split at hnew
      · next hhead =>
          rcases hhead with rfl | rfl
          · exact ⟨Or.inl (Or.inr rfl), Or.inl h.placed.1⟩
          · exact ⟨Or.inr rfl, Or.inl h.placed.2⟩
      · cases hnew

end Placing

/-- The pages of the new block are in place and accessible, the heap has it and the rest
where the free block was, and no other thread sees the call. -/
def SoundAllocation (s next : Paging) (c : Nat) (stop : Int) (blocks : List Block)
    (size : Nat) (p : Int) : Prop :=
  ∃ left block right first others, Allocator.Fits blocks left block right size ∧
    Placement (Allocator.extendedSize size) block (first :: others) ∧
    p = total left + hdrSize ∧ next.UserHeap c stop (left ++ (first :: others) ++ right) ∧
    (∀ k, pageOf (total left) ≤ k → k ≤ pageOf (total left + first.size - 4) →
      next.Own c k) ∧
    ∀ t q, t ≠ c → next.logicalMemory (t, q) = s.logicalMemory (t, q)

structure AllocationReady (s : Paging) (c : Nat) (blocks : List Block) (size : Nat) :
    Prop where
  owned : s.Owned
  walk : s.Walkable blocks size
  place : ∀ left block right, Allocator.Fits blocks left block right size →
    s.Placeable c size left block

theorem allocation_sound {s next : Paging} {c size fuel : Nat} {stop p : Int}
    {blocks : List Block}
    (hreachable : Reachable s) (hcurrent : s.scheduler.current = some c)
    (hheap : s.UserHeap c stop blocks) (hready : s.AllocationReady c blocks size)
    (h : s.myallocate size fuel = some (some p, next)) :
    SoundAllocation s next c stop blocks size p := by
  obtain ⟨htabled, hsteady⟩ := hreachable.tabled
  obtain ⟨table, htable, -⟩ := htabled.table (hsteady.current_alive hcurrent)
  unfold myallocate at h
  split at h
  · cases h
  · next hsize =>
      split at h
      · cases h
      · obtain ⟨⟨found, after⟩, hfind, hthen⟩ := Option.bind_eq_some_iff.mp h
        cases found with
        | none => cases hthen
        | some ptr =>
            obtain ⟨rfl, left, block, right, hfits, rfl⟩ :=
              findFit_fits hheap hready.walk fuel (List.nil_append blocks).symm nofun
                ((congrArg (findFit _ s · fuel) (Int.zero_add hdrSize)).trans hfind)
            have heq : blocks = left ++ block :: right := by simpa using hfits.eq
            have hopen := hready.walk left (block :: right) heq hfits.lowest
            have hplace := hready.place left block right hfits
            have hroom := hfits.room
            subst heq
            have hget : after.getSize (total left + hdrSize) =
                some ((block.size : Int), after) := by
              rw [getSize_block hheap.word hopen, hheap.header.1]
            dsimp only at hthen
            rw [hget, Option.bind_eq_bind, Option.bind_some] at hthen
            dsimp only at hthen
            rw [extendedSize_cast] at hthen
            split at hthen
            · next hcut =>
                simp only [hdrSize] at hcut
                obtain ⟨mid, hmid, hmap⟩ := Option.bind_eq_some_iff.mp hthen
                have hrest : Allocator.extendedSize size + 12 ≤ block.size := by
                  have haligned := Allocator.extendedSize_aligned size
                  have hblock := block.aligned
                  omega
                obtain ⟨hp, hnext, hpages, hothers⟩ := split_run htabled hready.owned hcurrent
                  htable hheap hopen hplace hsize hrest hmid hmap
                refine ⟨left, block, right, _, _, hfits, .split _ _ hrest,
                  Option.some.inj hp, hnext, ?_, hothers⟩
                have hfooter : footerPage left block size =
                    pageOf (total left + Allocator.extendedSize size - 4) := if_pos hrest
                exact fun k hk hk' => hpages k hk (hfooter ▸ hk')
            · next hwhole =>
                split at hthen
                · next hcase =>
                    simp only [hdrSize] at hwhole hcase
                    obtain ⟨mid, hmid, hmap⟩ := Option.bind_eq_some_iff.mp hthen
                    have htight : block.size < Allocator.extendedSize size + 12 := by omega
                    obtain ⟨hp, hnext, hpages, hothers⟩ := occupy_run htabled hready.owned
                      hcurrent htable hheap hopen hplace hroom htight hmid hmap
                    refine ⟨left, block, right, block.take, [], hfits, .whole hroom htight,
                      Option.some.inj hp, hnext, ?_, hothers⟩
                    have hfooter : footerPage left block size =
                        pageOf (total left + block.size - 4) := if_neg (by omega)
                    exact fun k hk hk' => hpages k hk (hfooter ▸ hk')
                · cases hthen

def whole : Block :=
  ⟨6291456, false, by decide, by decide⟩

theorem whole_heap {s : Paging} {c : Nat}
    (htags : s.memory.load 0 = tagWord usrSize 0 ∧
      s.memory.load (usrSize - 4) = tagWord usrSize 0)
    (hend : s.memory.load usrSize = 1)
    (hplace : s.place (c, 0) = some 0 ∧ s.place (c, lastPage) = some lastPage) :
    s.UserHeap c usrSize [whole] where
  extent := rfl
  bounded := Int.le_refl usrSize
  tiles := ⟨htags.1, htags.2, trivial⟩
  inPlace x hx := by
    replace hx := hx.resolve_right fun hin => Int.lt_irrefl usrSize hin.2
    rw [tagAt] at hx
    split at hx
    · next hword =>
        rcases hword with rfl | rfl
        · exact hplace.1
        · exact hplace.2
    · cases hx
  epilogue := by
    rw [hend]
    rfl

theorem fits_whole {left right : List Block} {block : Block} {size : Nat}
    (h : Allocator.Fits [whole] left block right size) :
    left = [] ∧ block = whole ∧ right = [] := by
  have heq := h.eq
  rw [List.append_assoc, List.singleton_append] at heq
  cases left with
  | nil =>
      obtain ⟨rfl, rfl⟩ := List.cons.inj heq
      exact ⟨rfl, rfl, rfl⟩
  | cons head tail =>
      have hlength := congrArg List.length heq
      simp at hlength

theorem mainAlone_ready : mainAlone.UserHeap 0 usrSize [whole] ∧
    mainAlone.AllocationReady 0 [whole] 5000 := by
  have hfirst : mainAlone.Own 0 0 := ⟨by decide +kernel, by decide⟩
  have hlast : mainAlone.Own 0 lastPage := ⟨by decide +kernel, by decide⟩
  have hfree : mainAlone.place (0, 1) = none ∧ mainAlone.masterTable 1 = false :=
    ⟨by decide +kernel, by decide⟩
  have hquiet : mainAlone.Quiet 0 0 1 := by
    intro k _ hk habsent
    rcases Nat.le_one_iff_eq_zero_or_eq_one.mp hk with rfl | rfl
    · rw [hfirst.1] at habsent
      cases habsent
    · exact hfree.2
  refine ⟨whole_heap ⟨by decide +kernel, by decide +kernel⟩ (by decide +kernel)
    ⟨hfirst.1, hlast.1⟩, mainAlone_run.owned, ?_, ?_⟩
  · intro left right heq hfull
    cases left with
    | nil => exact hfirst.2
    | cons block others =>
        obtain ⟨rfl, -⟩ := List.cons.inj heq
        exact absurd (hfull whole List.mem_cons_self) (by decide)
  · intro left block right hfits
    obtain ⟨rfl, rfl, -⟩ := fits_whole hfits
    refine ⟨hlast.2, ?_, Or.inr (Or.inl ⟨hfree.2, Or.inl hquiet⟩), Or.inl rfl, Or.inl hquiet⟩
    intro k _ hk
    rcases Nat.le_one_iff_eq_zero_or_eq_one.mp hk with rfl | rfl
    · exact Or.inl hfirst
    · exact Or.inr ⟨hfree.1, Or.inl ⟨hfree.2, Or.inl hquiet⟩⟩

/-! A thread that `my_pthread_create` made.  Its first block of `USR_SIZE - 8` bytes gets
its footer when `myallocate` cuts it. -/

def taken : Block :=
  ⟨108, true, by decide, by decide⟩

def remainder : Block :=
  ⟨6291340, false, by decide, by decide⟩

theorem mapPage_placed {s : Paging} {table i : Nat} (hi : i < memoryPages)
    (hused : s.masterTable i = true) (hcell : s.cells (table + i) = i) :
    s.mapPage table i = some s := by
  rw [mapPage, if_pos hi, if_pos ⟨hused, hcell⟩]

theorem setValue_over {s : Paging} (memory : Bytes) {x : Int} (hword : UserWord x)
    (h : s.accessible (pageOf x) = true) (size allocation : Int) :
    setValue { s with memory := memory } x size allocation =
      some { s with memory := memory.store x (tagWord size allocation) } :=
  setValue_open (s := { s with memory := memory }) hword h size allocation

def cutMemory (memory : Bytes) : Bytes :=
  (((memory.store 6291444 (tagWord 6291340 0)).store 0 (tagWord 108 1)).store 104
    (tagWord 108 1)).store 108 (tagWord 6291340 0)

section Cut

variable {s : Paging} {c table : Nat} (hcurrent : s.scheduler.current = some c)
  (hslot : s.pageTables c = some table) (hhead : s.memory.load 0 = tagWord 6291448 0)
  (hfirst : s.accessible 0 = true) (hlast : s.accessible 1535 = true)
  (hused : s.masterTable 0 = true) (hcell : s.cells table = 0)

include hhead hfirst

theorem cut_search : s.getSize 4 = some (6291448, s) ∧ s.getFooter 4 = some (6291444, s) ∧
    findFit 108 s 4 10 = some (some 4, s) := by
  have hword : UserWord (getHeader 4) := ⟨by decide, by decide, by decide⟩
  have hsize : s.getSize 4 = some (6291448, s) := by
    rw [getSize_open hword hfirst]
    change some (wordSize (s.memory.load 0), s) = _
    rw [hhead]
    rfl
  have hflag : s.getAllocation 4 = some (0, s) := by
    rw [getAllocation_open hword hfirst]
    change some (wordAllocation (s.memory.load 0), s) = _
    rw [hhead]
    rfl
  refine ⟨hsize, ?_, ?_⟩
  · rw [getFooter, hsize]
    rfl
  · rw [findFit_open hsize hflag, if_neg (by decide), if_pos (by decide)]

include hlast in
theorem cut_split :
    s.splitBlock 4 108 6291340 = some { s with memory := cutMemory s.memory } := by
  have hword : ∀ x : Int, 4 ∣ x ∧ 0 ≤ x ∧ x < usrSize → UserWord x :=
    fun x h => ⟨h.1, h.2.1, h.2.2⟩
  refine Option.bind_eq_some_iff.mpr ⟨_, (cut_search hhead hfirst).2.1, ?_⟩
  refine Option.bind_eq_some_iff.mpr ⟨_,
    setValue_over s.memory (x := 6291444) (hword _ (by decide)) hlast 6291340 0, ?_⟩
  refine Option.bind_eq_some_iff.mpr ⟨_,
    setValue_over _ (x := 0) (hword _ (by decide)) hfirst 108 1, ?_⟩
  refine Option.bind_eq_some_iff.mpr ⟨_,
    setValue_over _ (x := 104) (hword _ (by decide)) hfirst 108 1, ?_⟩
  exact setValue_over _ (x := 108) (hword _ (by decide)) hfirst 6291340 0

include hlast hcurrent hslot hused hcell in
theorem cut_returns :
    s.myallocate 100 10 = some (some 4, { s with memory := cutMemory s.memory }) := by
  obtain ⟨hsize, -, hfind⟩ := cut_search hhead hfirst
  have hheader : (cutMemory s.memory).load 0 = tagWord 108 1 := by
    rw [cutMemory, Bytes.load_store_disjoint _ _ (by decide),
      Bytes.load_store_disjoint _ _ (by decide), Bytes.load_store_same]
  have hfooter : getFooter { s with memory := cutMemory s.memory } 4 =
      some (104, { s with memory := cutMemory s.memory }) := by
    rw [getFooter, getSize_open ⟨by decide, by decide, by decide⟩ hfirst]
    change some (4 + wordSize ((cutMemory s.memory).load 0) - 2 * hdrSize, _) = _
    rw [hheader]
    rfl
  have hpage : mapPage { s with memory := cutMemory s.memory } table 0 =
      some { s with memory := cutMemory s.memory } :=
    mapPage_placed (by decide) hused hcell
  have hmap : mapAllocated { s with memory := cutMemory s.memory } 4 =
      some (some 4, { s with memory := cutMemory s.memory }) := by
    refine Option.bind_eq_some_iff.mpr ⟨_, hfooter, ?_⟩
    refine Option.bind_eq_some_iff.mpr ⟨_, ?_, rfl⟩
    refine Option.bind_eq_some_iff.mpr ⟨c, hcurrent, ?_⟩
    refine Option.bind_eq_some_iff.mpr ⟨table, hslot, ?_⟩
    exact Option.bind_eq_some_iff.mpr ⟨_, hpage, rfl⟩
  rw [myallocate, if_neg (by decide), if_neg (by decide)]
  refine Option.bind_eq_some_iff.mpr ⟨_, hfind, ?_⟩
  refine Option.bind_eq_some_iff.mpr ⟨_, hsize, ?_⟩
  dsimp only
  rw [if_pos (by decide)]
  exact Option.bind_eq_some_iff.mpr ⟨_, cut_split hhead hfirst hlast, hmap⟩

end Cut

theorem cut_heap {s : Paging} {c : Nat}
    (htags : s.memory.load 0 = tagWord 108 1 ∧ s.memory.load 104 = tagWord 108 1 ∧
      s.memory.load 108 = tagWord 6291340 0 ∧ s.memory.load 6291444 = tagWord 6291340 0)
    (hend : s.memory.load 6291448 = 0)
    (hplace : s.place (c, 0) = some 0 ∧ s.place (c, lastPage) = some lastPage) :
    s.UserHeap c 6291448 [taken, remainder] where
  extent := rfl
  bounded := by decide
  tiles := ⟨htags.1, htags.2.1, htags.2.2.1, htags.2.2.2, trivial⟩
  inPlace x hx := by
    rcases hx with hx | ⟨rfl, -⟩
    · rw [tagAt] at hx
      split at hx
      · next hword =>
          rcases hword with rfl | rfl
          · exact hplace.1
          · exact hplace.1
      · rw [tagAt] at hx
        split at hx
        · next hword =>
            rcases hword with rfl | rfl
            · exact hplace.1
            · exact hplace.2
        · cases hx
    · exact hplace.2
  epilogue := by
    rw [hend]
    rfl

theorem fits_cut {left right : List Block} {block : Block} {size : Nat}
    (h : Allocator.Fits [taken, remainder] left block right size) :
    left = [taken] ∧ block = remainder := by
  have heq := h.eq
  rw [List.append_assoc, List.singleton_append] at heq
  cases left with
  | nil =>
      obtain ⟨rfl, -⟩ := List.cons.inj heq
      exact absurd h.free (by decide)
  | cons head tail =>
      obtain ⟨rfl, hrest⟩ := List.cons.inj heq
      cases tail with
      | nil =>
          obtain ⟨rfl, -⟩ := List.cons.inj hrest
          exact ⟨rfl, rfl⟩
      | cons second tail =>
          have hlength := congrArg List.length hrest
          simp at hlength

/-- Whatever the thread asks for in its first page is there. -/
theorem cut_ready {s : Paging} {c : Nat} (howned : s.Owned) (hfirst : s.Own c 0)
    (hlast : s.Own c lastPage) : s.AllocationReady c [taken, remainder] 200 where
  owned := howned
  walk left right heq _ := by
    cases left with
    | nil => exact hfirst.2
    | cons head tail =>
        obtain ⟨rfl, hrest⟩ := List.cons.inj heq
        cases tail with
        | nil => exact hfirst.2
        | cons second tail =>
            obtain ⟨rfl, hnone⟩ := List.cons.inj hrest
            obtain ⟨rfl, -⟩ := List.append_eq_nil_iff.mp hnone.symm
            exact hlast.2
  place left block right hfits := by
    obtain ⟨rfl, rfl⟩ := fits_cut hfits
    have hquiet : s.Quiet c 0 0 := by
      intro k _ hk habsent
      obtain rfl := Nat.le_zero.mp hk
      rw [hfirst.1] at habsent
      cases habsent
    have hlow : headerPage [taken] = 0 := by decide
    have hfooter : footerPage [taken] remainder 200 = 0 := by decide
    have hrest : restPage [taken] remainder 200 = 0 := by decide
    refine ⟨hlast.2, ?_⟩
    rw [hlow, hfooter, hrest]
    refine ⟨fun k _ hk => ?_, Or.inl hfirst, Or.inl rfl, Or.inl hquiet⟩
    obtain rfl := Nat.le_zero.mp hk
    exact Or.inl hfirst

theorem cut_run : ∃ s, created.bind (fun s => s.myallocate 100 10) = some (some 4, s) ∧
    Reachable s ∧ s.scheduler.current = some 1 ∧ s.UserHeap 1 6291448 [taken, remainder] ∧
      s.AllocationReady 1 [taken, remainder] 200 := by
  obtain ⟨s, hs, hrun, hcurrent, -⟩ := created_live
  have hfacts : created.map (fun s => (s.pageTables 1, s.accessible 0, s.accessible 1535,
      s.masterTable 0, s.cells 2000)) = some (some 2000, true, true, true, 0) := by
    decide +kernel
  have hplaces : created.map (fun s => (s.place (1, 0), s.place (1, lastPage),
      s.memory.load 0)) = some (some 0, some lastPage, tagWord 6291448 0) := by
    decide +kernel
  have htags : (created.bind fun s => s.myallocate 100 10).map (fun r =>
      ((r.2.memory.load 0, r.2.memory.load 104), r.2.memory.load 108,
        r.2.memory.load 6291444, r.2.memory.load 6291448)) =
      some ((tagWord 108 1, tagWord 108 1), tagWord 6291340 0, tagWord 6291340 0, 0) := by
    decide +kernel
  rw [hs] at hfacts hplaces htags
  obtain ⟨hslot, hfirst, hlast, hused, hcell⟩ : s.pageTables 1 = some 2000 ∧
      s.accessible 0 = true ∧ s.accessible 1535 = true ∧ s.masterTable 0 = true ∧
        s.cells 2000 = 0 := by
    simpa using Option.some.inj hfacts
  obtain ⟨hzero, hend, hhead⟩ : s.place (1, 0) = some 0 ∧
      s.place (1, lastPage) = some lastPage ∧ s.memory.load 0 = tagWord 6291448 0 := by
    simpa using Option.some.inj hplaces
  have hcut := cut_returns hcurrent hslot hhead hfirst hlast hused hcell
  rw [Option.bind_some, hcut, Option.map_some] at htags
  obtain ⟨⟨hone, htwo⟩, hthree, hfour, hstop⟩ := by
    simpa only [Option.some.injEq, Prod.mk.injEq] using htags
  refine ⟨{ s with memory := cutMemory s.memory }, ?_,
    (myallocate_requests hcut).reachable hcurrent hrun.reachable, hcurrent,
    cut_heap ⟨hone, htwo, hthree, hfour⟩ hstop ⟨hzero, hend⟩,
    cut_ready (hrun.owned.store _) ⟨hzero, hfirst⟩ ⟨hend, hlast⟩⟩
  rw [hs, Option.bind_some, hcut]

/-- Main's first block, and the second one of a thread that it created. -/
theorem allocation_sound_both : (∃ next, mainAlone.myallocate 5000 10 = some (some 4, next) ∧
      SoundAllocation mainAlone next 0 usrSize [whole] 5000 4) ∧
    ∃ s next, created.bind (fun s => s.myallocate 100 10) = some (some 4, s) ∧
      s.myallocate 200 10 = some (some 112, next) ∧
        SoundAllocation s next 1 6291448 [taken, remainder] 200 112 := by
  constructor
  · obtain ⟨⟨p, next⟩, hnext⟩ := Option.isSome_iff_exists.mp
      (by decide +kernel : (mainAlone.myallocate 5000 10).isSome = true)
    have hresult : (mainAlone.myallocate 5000 10).map Prod.fst = some (some 4) := by
      decide +kernel
    rw [hnext] at hresult
    obtain rfl : p = some 4 := Option.some.inj hresult
    obtain ⟨hheap, hready⟩ := mainAlone_ready
    exact ⟨next, hnext, allocation_sound mainAlone_run.reachable rfl hheap hready hnext⟩
  · obtain ⟨s, hs, hreachable, hcurrent, hheap, hready⟩ := cut_run
    have hresult : ((created.bind fun s => s.myallocate 100 10).bind fun r =>
        r.2.myallocate 200 10).map Prod.fst = some (some 112) := by
      decide +kernel
    rw [hs, Option.bind_some] at hresult
    obtain ⟨⟨p, next⟩, hnext, rfl⟩ := Option.map_eq_some_iff.mp hresult
    exact ⟨s, next, hs, hnext, allocation_sound hreachable hcurrent hheap hready hnext⟩

def grown : Option Paging := do
  let s ← created
  let (_, s) ← s.myallocate 5000 10
  s.step (.exit 0)

theorem grown_reachable : ∃ s, grown = some s ∧ Reachable s := by
  obtain ⟨s, hs, hrun, hcurrent, -⟩ := created_live
  obtain ⟨next, hnext⟩ := Option.isSome_iff_exists.mp
    (by decide +kernel : grown.isSome = true)
  refine ⟨next, hnext, ?_⟩
  rw [grown, hs, Option.bind_eq_bind, Option.bind_some] at hnext
  obtain ⟨⟨p, mid⟩, hmid, hexit⟩ := Option.bind_eq_some_iff.mp hnext
  have hrequests := myallocate_requests hmid
  exact .step (.exit 0) (hrequests.reachable hcurrent hrun.reachable)
    (hrequests.rewrites.scheduler ▸ hcurrent) trivial hexit

theorem allocation_fails : ¬ ∀ s next c stop blocks size fuel p, Reachable s →
    s.scheduler.current = some c → s.UserHeap c stop blocks →
      4096 ≤ s.freeFrames.card → s.myallocate size fuel = some (some p, next) →
        SoundAllocation s next c stop blocks size p := by
  intro h
  obtain ⟨s, hs, hreachable⟩ := grown_reachable
  have hplaces : grown.map (fun s => (s.scheduler.current, s.place (0, 0),
      s.place (0, lastPage))) = some (some 0, some 0, some lastPage) := by
    decide +kernel
  have htags : grown.map (fun s => (s.memory.load 0, s.memory.load (usrSize - 4),
      s.memory.load usrSize)) = some (tagWord usrSize 0, tagWord usrSize 0, 1) := by
    decide +kernel
  have hcard : grown.map (fun s => decide (4096 ≤ s.freeFrames.card)) = some true := by
    decide +kernel
  have hresult : (grown.bind fun s => s.myallocate 5000 10).map (fun r =>
      (r.1, r.2.memory.load 5004)) = some (some 4, 0) := by
    decide +kernel
  rw [hs] at hplaces htags hcard hresult
  obtain ⟨hcurrent, hzero, hlast⟩ : s.scheduler.current = some 0 ∧
      s.place (0, 0) = some 0 ∧ s.place (0, lastPage) = some lastPage := by
    simpa using Option.some.inj hplaces
  obtain ⟨hhead, htail, hend⟩ : s.memory.load 0 = tagWord usrSize 0 ∧
      s.memory.load (usrSize - 4) = tagWord usrSize 0 ∧ s.memory.load usrSize = 1 := by
    simpa using Option.some.inj htags
  obtain ⟨⟨p, next⟩, hnext, heq⟩ := Option.map_eq_some_iff.mp hresult
  obtain ⟨rfl, hlost⟩ : p = some 4 ∧ next.memory.load 5004 = 0 := by simpa using heq
  obtain ⟨left, block, right, first, others, hfits, hplaced, -, hheap, -, -⟩ :=
    h s next 0 usrSize [whole] 5000 10 4 hreachable hcurrent (whole_heap ⟨hhead, htail⟩ hend
      ⟨hzero, hlast⟩) (of_decide_eq_true (Option.some.inj hcard)) hnext
  obtain ⟨rfl, rfl, rfl⟩ := fits_whole hfits
  cases hplaced with
  | split hmin halign hroom =>
      -- the footer of the new block is gone
      have hfooter : next.memory.load 5004 = tagWord 5008 1 := hheap.tiles.2.1
      rw [hlost] at hfooter
      exact absurd hfooter (by decide)
  | whole hfit htight => exact absurd htight (by decide)

end RutgersOS.Assignment2.Paging
