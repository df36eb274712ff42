import RutgersOS.Assignment2.Growth
import RutgersOS.Assignment2.Regions

namespace RutgersOS.Assignment2.Paging

open RutgersOS.Memory RutgersOS.Pthread

def pageOf (x : Int) : Nat :=
  (x / pageSize).toNat

/-- The blocks end at `stop`, with a word of size 0.  For main that is the end of the
region, behind which `initializeMemory` writes the word, and for a thread that
`my_pthread_create` makes the end of the one block that it gets. -/
structure UserHeap (s : Paging) (c : Nat) (stop : Int) (blocks : List Block) : Prop where
  extent : (total blocks : Int) = stop
  bounded : stop ≤ usrSize
  tiles : Tiles Allocator.tagCodec s.memory 0 blocks
  inPlace : ∀ x, (tagAt Allocator.tagCodec 0 blocks x).isSome ∨ x = stop ∧ stop < usrSize →
    s.place (c, pageOf x) = some (pageOf x)
  epilogue : wordSize (s.memory.load stop) = 0

structure UserWord (x : Int) : Prop where
  aligned : 4 ∣ x
  low : 0 ≤ x
  high : x < usrSize

namespace UserWord

variable {x : Int}

theorem page (h : UserWord x) : pageOf x < memoryPages :=
  page_of_address h.low h.high

theorem address (h : UserWord x) {y : Int} (hlow : x ≤ y) (hhigh : y < x + 4) :
    0 ≤ y ∧ y < usrSize ∧ pageOf y = pageOf x := by
  obtain ⟨haligned, hstart, hend⟩ := h
  simp only [usrSize, pageOf, pageSize] at hend ⊢
  omega

theorem load_content (h : UserWord x) {s next : Paging}
    (hcontent : next.content (pageOf x) = s.content (pageOf x)) :
    next.memory.load x = s.memory.load x := by
  refine Bytes.load_congr fun y hlow hhigh => ?_
  obtain ⟨hstart, -, hpage⟩ := h.address hlow hhigh
  have hoffset : (y - frameAddress (pageOf x)).toNat < 4096 := by
    rw [← hpage]
    simp only [frameAddress, pageOf, pageSize]
    omega
  have hbyte := congrFun hcontent ⟨_, hoffset⟩
  have haddress : frameAddress (pageOf x) + ((y - frameAddress (pageOf x)).toNat : Int) = y := by
    rw [← hpage]
    simp only [frameAddress, pageOf, pageSize]
    omega
  simp only [content, if_pos h.page, haddress] at hbyte
  exact hbyte

theorem store_outside (h : UserWord x) (s : Paging) (word : BitVec 32) {frame : Nat}
    (hne : frame ≠ pageOf x) :
    Paging.content { s with memory := s.memory.store x word } frame = s.content frame := by
  funext offset
  unfold content
  split
  · next hlow =>
      have hoffset := offset.isLt
      refine Bytes.store_outside s.memory word ?_
      obtain ⟨haligned, hstart, hend⟩ := h
      simp only [frameAddress, pageOf, pageSize] at hne ⊢
      omega
  · rfl

end UserWord

theorem touch_page {s : Paging} {x : Int} (hlow : 0 ≤ x) (hhigh : x < usrSize + pageSize) :
    s.touch x = s.touchPage (pageOf x) :=
  if_pos ⟨hlow, hhigh⟩

theorem touchPage_open {s : Paging} {page : Nat} (h : s.accessible page = true) :
    s.touchPage page = some s :=
  if_pos h

theorem usrSize_lt : usrSize < usrSize + pageSize := by
  decide

theorem touchWord_cases {s next : Paging} {x : Int} (hword : UserWord x)
    (h : s.touchWord x = some next) :
    s.accessible (pageOf x) = true ∧ next = s ∨ s.accessible (pageOf x) = false ∧
      ∃ mid, s.segHandler (pageOf x) = some mid ∧
        (mid.accessible (pageOf x) = true → next = mid) := by
  obtain ⟨mid, hfirst, hsecond⟩ := Option.bind_eq_some_iff.mp h
  obtain ⟨hlow, hhigh, hpage⟩ := hword.address (y := x + 3) (by omega) (by omega)
  rw [touch_page hword.low (Int.lt_trans hword.high usrSize_lt)] at hfirst
  rw [touch_page hlow (Int.lt_trans hhigh usrSize_lt), hpage] at hsecond
  have hthen : mid.accessible (pageOf x) = true → next = mid := by
    intro hopen
    rw [touchPage_open hopen] at hsecond
    exact (Option.some.inj hsecond).symm
  cases hcase : s.accessible (pageOf x) with
  | true =>
      rw [touchPage_open hcase] at hfirst
      obtain rfl := Option.some.inj hfirst
      exact Or.inl ⟨rfl, hthen hcase⟩
  | false =>
      rw [touchPage, hcase] at hfirst
      exact Or.inr ⟨rfl, mid, hfirst, hthen⟩

theorem touchWord_open {s : Paging} {x : Int} (haligned : 4 ∣ x) (hlow : 0 ≤ x)
    (hhigh : x ≤ usrSize) (h : s.accessible (pageOf x) = true) : s.touchWord x = some s := by
  have hsize : usrSize = 6291456 := rfl
  have hbytes : pageSize = 4096 := rfl
  have hpage : pageOf (x + 3) = pageOf x := by
    simp only [pageOf, hbytes]
    omega
  rw [touchWord, touch_page hlow (by omega), touchPage_open h, Option.bind_eq_bind,
    Option.bind_some, touch_page (by omega) (by omega), hpage, touchPage_open h]

theorem UserWord.touchWord {s : Paging} {x : Int} (hword : UserWord x)
    (h : s.accessible (pageOf x) = true) : s.touchWord x = some s :=
  touchWord_open hword.aligned hword.low (Int.le_of_lt hword.high) h

theorem getSize_open {s : Paging} {ptr : Int} (hword : UserWord (getHeader ptr))
    (h : s.accessible (pageOf (getHeader ptr)) = true) :
    s.getSize ptr = some (wordSize (s.memory.load (getHeader ptr)), s) := by
  rw [getSize, hword.touchWord h]
  rfl

theorem getAllocation_open {s : Paging} {ptr : Int} (hword : UserWord (getHeader ptr))
    (h : s.accessible (pageOf (getHeader ptr)) = true) :
    s.getAllocation ptr = some (wordAllocation (s.memory.load (getHeader ptr)), s) := by
  rw [getAllocation, hword.touchWord h]
  rfl

theorem setValue_open {s : Paging} {x : Int} (hword : UserWord x)
    (h : s.accessible (pageOf x) = true) (size allocation : Int) :
    s.setValue x size allocation =
      some { s with memory := s.memory.store x (tagWord size allocation) } := by
  rw [setValue, hword.touchWord h]
  rfl

theorem extendedSize_cast (size : Nat) :
    extendedSize size = (Allocator.extendedSize size : Int) := by
  simp only [extendedSize, Allocator.extendedSize, hdrSize]
  omega

theorem tiles_header {memory : Bytes} {left right : List Block} {block : Block}
    (hextent : (total (left ++ block :: right) : Int) ≤ usrSize)
    (htiles : Tiles Allocator.tagCodec memory 0 (left ++ block :: right)) :
    wordSize (memory.load (total left)) = block.size ∧
      wordAllocation (memory.load (total left)) = block.flag := by
  have haligned := block.aligned
  have htag : memory.load (total left) = block.tag Allocator.tagCodec := by
    have hfirst := ((Tiles.append_iff _).mp htiles).2.1
    rwa [Int.zero_add] at hfirst
  rw [total_append, total_cons] at hextent
  simp only [usrSize] at hextent
  have hsmall : (block.size : Int) < Allocator.tagCodec.limit := by
    change (block.size : Int) < 2 ^ 30
    omega
  rw [htag]
  exact ⟨Allocator.tagCodec.size_encode _ _ (by omega) hsmall (by omega) block.flag_cases,
    Allocator.tagCodec.flag_encode _ _ (by omega) hsmall (by omega) block.flag_cases⟩

namespace UserHeap

variable {s : Paging} {c : Nat} {stop : Int} {left right : List Block} {block : Block}
  (h : s.UserHeap c stop (left ++ block :: right))

include h

theorem fits : (total left + block.size : Int) ≤ usrSize := by
  have hextent := h.extent
  have hbounded := h.bounded
  rw [total_append, total_cons] at hextent
  omega

theorem word : UserWord (total left) := by
  have hfits := h.fits
  have hminimal := block.minimal
  have haligned := four_dvd_total left
  exact ⟨by omega, by omega, by omega⟩

theorem tail_word : UserWord (total left + block.size - 4) := by
  have hfits := h.fits
  have hminimal := block.minimal
  have haligned := four_dvd_total left
  have haligned' := block.aligned
  exact ⟨by omega, by omega, by omega⟩

theorem header : wordSize (s.memory.load (total left)) = block.size ∧
    wordAllocation (s.memory.load (total left)) = block.flag :=
  tiles_header (h.extent ▸ h.bounded) h.tiles

theorem placed : s.place (c, pageOf (total left)) = some (pageOf (total left)) ∧
    s.place (c, pageOf (total left + block.size - 4)) =
      some (pageOf (total left + block.size - 4)) := by
  have hminimal := block.minimal
  have htag : ∀ x : Int, x = total left ∨ x = total left + block.size - 4 →
      (tagAt Allocator.tagCodec 0 (left ++ block :: right) x).isSome := by
    intro x hx
    have hleft : tagAt Allocator.tagCodec 0 left x = none := tagAt_above _ (by omega)
    rw [tagAt_append, hleft, Option.none_or, Int.zero_add, tagAt_hit _ hx]
    rfl
  exact ⟨h.inPlace _ (Or.inl (htag _ (Or.inl rfl))), h.inPlace _ (Or.inl (htag _ (Or.inr rfl)))⟩

end UserHeap

/-- The pages that the search reads are accessible, that of the last word included. -/
def Walkable (s : Paging) (blocks : List Block) (size : Nat) : Prop :=
  ∀ left right, blocks = left ++ right → Allocator.Full left size →
    s.accessible (pageOf (total left)) = true

theorem findFit_open {s : Paging} {ptr blockSize allocBit : Int}
    (hsize : s.getSize ptr = some (blockSize, s))
    (hflag : s.getAllocation ptr = some (allocBit, s)) (extendedSize : Int) (n : Nat) :
    findFit extendedSize s ptr (n + 1) =
      if blockSize = 0 then some (none, s)
      else if allocBit ≠ 1 ∧ extendedSize ≤ blockSize then some (some ptr, s)
      else findFit extendedSize s (ptr + blockSize) n := by
  rw [findFit, hsize, Option.bind_eq_bind, Option.bind_some]
  dsimp only
  rw [hflag, Option.bind_some]

theorem findFit_fits {s next : Paging} {c size : Nat} {stop p : Int} {blocks : List Block}
    (h : s.UserHeap c stop blocks) (hwalk : s.Walkable blocks size) (fuel : Nat) :
    ∀ {left right : List Block}, blocks = left ++ right → Allocator.Full left size →
      findFit (extendedSize size) s (total left + hdrSize) fuel = some (some p, next) →
        next = s ∧ ∃ left block right, Allocator.Fits blocks left block right size ∧
          p = total left + hdrSize := by
  induction fuel with
  | zero => exact fun _ _ => nofun
  | succ fuel ih =>
      intro left right hblocks hfull hfind
      have hheader : getHeader (total left + hdrSize) = total left := by
        simp only [getHeader, hdrSize]
        omega
      cases right with
      | nil =>
          have hend : (total left : Int) = stop := by
            rw [← h.extent, hblocks, List.append_nil]
          have hopen := hwalk left [] hblocks hfull
          have htouch : s.touchWord (total left) = some s :=
            touchWord_open (Int.natCast_dvd_natCast.mpr (four_dvd_total left)) (by omega)
              (hend ▸ h.bounded) hopen
          have hsize : s.getSize (total left + hdrSize) = some (0, s) := by
            rw [getSize, hheader, htouch, Option.bind_eq_bind, Option.bind_some, hend,
              h.epilogue]
          have hflag : ∃ flag, s.getAllocation (total left + hdrSize) = some (flag, s) := by
            rw [getAllocation, hheader, htouch]
            exact ⟨_, rfl⟩
          obtain ⟨flag, hflag⟩ := hflag
          rw [findFit_open hsize hflag, if_pos rfl] at hfind
          cases hfind
      | cons block right =>
          subst hblocks
          have hword : UserWord (getHeader (total left + hdrSize)) := by
            rw [hheader]
            exact h.word
          have hopen : s.accessible (pageOf (getHeader (total left + hdrSize))) = true := by
            rw [hheader]
            exact hwalk left (block :: right) rfl hfull
          obtain ⟨hsize, hflag⟩ := h.header
          have hminimal := block.minimal
          rw [findFit_open (getSize_open hword hopen) (getAllocation_open hword hopen), hheader,
            hsize, hflag, extendedSize_cast, if_neg (by omega)] at hfind
          split at hfind
          · next hfits =>
              obtain ⟨hsome, hsame⟩ := Prod.mk.inj (Option.some.inj hfind)
              obtain rfl := Option.some.inj hsome
              refine ⟨hsame.symm, left, block, right, ⟨by simp, ?_, by omega, hfull⟩, rfl⟩
              cases hcase : block.allocated with
              | false => rfl
              | true => exact absurd (Block.flag_of_allocated hcase) hfits.1
          · next hpass =>
              have hfull' : Allocator.Full (left ++ [block]) size := by
                intro other hmem
                rcases List.mem_append.mp hmem with hin | hlast
                · exact hfull other hin
                · obtain rfl := List.mem_singleton.mp hlast
                  rcases Nat.lt_or_ge other.size (Allocator.extendedSize size) with hlt | hge
                  · exact Or.inr hlt
                  · left
                    refine Classical.not_not.mp fun hfree => hpass ⟨?_, by omega⟩
                    rw [Block.flag_of_free (by simpa using hfree)]
                    decide
              have hnext : (total left + hdrSize + block.size : Int) =
                  total (left ++ [block]) + hdrSize := by
                rw [total_append, total_cons, total_nil]
                omega
              rw [hnext, ← extendedSize_cast] at hfind
              have hsplit : left ++ block :: right = (left ++ [block]) ++ right := by simp
              exact ih hsplit hfull' hfind

def Held (s : Paging) (quiet : Prop) (c n k : Nat) : Prop :=
  s.place (c, k) = some k ∨ s.Reserved quiet n k

/-- Up to `n` more pages can be put in place.  `words` has the tags that the call wrote,
and memory agrees with it where `tags` holds. -/
structure Underway (quiet : Prop) (c : Nat) (pages : Nat → Prop) (start s : Paging) (n : Nat)
    (words : Bytes) (tags : Int → Prop) : Prop where
  rewrites : Rewrites start s
  owned : s.Owned
  inPlace : ∀ k, start.place (c, k) = some k → s.place (c, k) = some k
  own : ∀ k, start.Own c k → s.Own c k
  others : ∀ t q, t ≠ c → s.logicalMemory (t, q) = start.logicalMemory (t, q)
  ready : ∀ k, pages k → s.Ready quiet c n k
  roomy : quiet ∨ s.Roomy n
  tagged : ∀ x, tags x → UserWord x ∧ s.Held quiet c n (pageOf x) ∧
    s.memory.load x = words.load x
  epilogue : s.memory.load usrSize = start.memory.load usrSize

theorem Reserved.less {s : Paging} {quiet : Prop} {n k : Nat}
    (h : s.Reserved quiet (n + 1) k) : s.Reserved quiet n k :=
  ⟨h.1, h.2.imp_right fun hout hmem => hout (landing_more n hmem)⟩

theorem Ready.less {s : Paging} {quiet : Prop} {c n k : Nat}
    (h : s.Ready quiet c (n + 1) k) : s.Ready quiet c n k :=
  h.imp_right fun hcase => ⟨hcase.1, hcase.2.imp_left Reserved.less⟩

theorem Roomy.less {s : Paging} {n : Nat} (h : s.Roomy (n + 1)) : s.Roomy n :=
  ⟨Nat.le_of_succ_le h.enough, fun frame hmem => h.stored frame (landing_more n hmem)⟩

theorem Gained.held {quiet : Prop} {s next : Paging} {c f n k : Nat}
    (h : Gained quiet s next c f) (hk : s.Held quiet c (n + 1) k) :
    next.Held quiet c n k ∧ next.content k = s.content k := by
  rcases hk with hplace | hreserved
  · refine ⟨Or.inl ?_, h.content_own hplace⟩
    rw [h.kept k, hplace]
    rintro rfl
    have habsent := h.absent
    rw [hplace] at habsent
    cases habsent
  · refine ⟨?_, h.content_reserved hreserved⟩
    rcases Classical.em (k = f) with rfl | hne
    · exact Or.inl h.placed
    · exact Or.inr (h.reserved hne hreserved)

namespace Underway

variable {quiet : Prop} {c : Nat} {pages : Nat → Prop} {start s next : Paging} {n : Nat}
  {words : Bytes} {tags : Int → Prop}

theorem less (h : Underway quiet c pages start s (n + 1) words tags) :
    Underway quiet c pages start s n words tags :=
  { h with
    ready := fun k hk => (h.ready k hk).less
    roomy := h.roomy.imp_right Roomy.less
    tagged := fun x hx =>
      ⟨(h.tagged x hx).1, (h.tagged x hx).2.1.imp_right Reserved.less, (h.tagged x hx).2.2⟩ }

theorem gain {f : Nat} (h : Underway quiet c pages start s (n + 1) words tags)
    (hgained : Gained quiet s next c f) :
    Underway quiet c pages start next n words tags where
  rewrites := h.rewrites.trans hgained.rewrites
  owned := hgained.owned
  inPlace k hk := by
    have hplace := h.inPlace k hk
    rw [hgained.kept k, hplace]
    rintro rfl
    have habsent := hgained.absent
    rw [hplace] at habsent
    cases habsent
  own k hk := hgained.own h.owned.framed (h.own k hk)
  others t q ht := (hgained.logical _ fun heq => ht (Prod.mk.inj heq).1).trans (h.others t q ht)
  ready k hk := hgained.ready h.owned.framed (h.ready k hk)
  roomy := h.roomy.imp_right hgained.roomy
  tagged x hx := by
    obtain ⟨hword, hheld, hload⟩ := h.tagged x hx
    obtain ⟨hheld', hcontent⟩ := hgained.held hheld
    exact ⟨hword, hheld', (hword.load_content hcontent).trans hload⟩
  epilogue := by
    rw [← h.epilogue]
    exact Bytes.load_congr fun y hlow _ => hgained.beyond y hlow

theorem write (h : Underway quiet c pages start s n words tags) {x : Int}
    (hword : UserWord x) (hheld : s.Held quiet c n (pageOf x)) (word : BitVec 32) :
    Underway quiet c pages start { s with memory := s.memory.store x word } n
      (words.store x word) (fun y => tags y ∨ y = x) where
  rewrites := ⟨h.rewrites.scheduler, h.rewrites.pageTables, h.rewrites.fileOpen,
    h.rewrites.cells⟩
  owned := h.owned.store _
  inPlace := h.inPlace
  own := h.own
  others t q ht := by
    rw [← h.others t q ht, logicalMemory, logicalMemory, Memory.logical, Memory.logical]
    change (s.place (t, q)).map _ = _
    cases hplace : s.place (t, q) with
    | none => rfl
    | some frame =>
        rw [Option.map_some, Option.map_some, hword.store_outside]
        rintro rfl
        rcases hheld with hown | hreserved
        · exact ht (Prod.mk.inj (h.owned.framed.separate _ _ _ hplace hown)).1
        · exact (h.owned.framed.vacant hreserved.1).1 _ hplace
  ready := h.ready
  roomy := h.roomy.imp_right fun hroomy => ⟨hroomy.enough, hroomy.stored⟩
  tagged y hy := by
    change UserWord y ∧ s.Held quiet c n (pageOf y) ∧ _
    rcases Classical.em (y = x) with rfl | hne
    · exact ⟨hword, hheld, by rw [Bytes.load_store_same, Bytes.load_store_same]⟩
    · obtain ⟨hword', hheld', hload⟩ := h.tagged y (hy.resolve_right hne)
      refine ⟨hword', hheld', ?_⟩
      rw [Bytes.load_store_aligned _ _ hword.aligned hword'.aligned,
        Bytes.load_store_aligned _ _ hword.aligned hword'.aligned, if_neg hne, if_neg hne]
      exact hload
  epilogue := by
    rw [← h.epilogue]
    apply Bytes.load_store_disjoint
    have haligned := hword.aligned
    have hhigh := hword.high
    simp only [usrSize] at hhigh ⊢
    omega

variable {table : Nat} (htabled : start.Tabled)
  (hcurrent : start.scheduler.current = some c) (htable : start.tableOf c = some table)

include htabled hcurrent htable

theorem touch (h : Underway quiet c pages start s (n + 1) words tags) {x : Int}
    (hword : UserWord x) (hpage : pages (pageOf x))
    (hlast : s.accessible (pageOf x) = false → s.masterTable (pageOf x) = true →
      s.LastFree (pageOf x)) (htouch : s.touchWord x = some next) :
    s.accessible (pageOf x) = true ∧ next = s ∨
      s.accessible (pageOf x) = false ∧ Gained quiet s next c (pageOf x) := by
  rcases touchWord_cases hword htouch with hopen | ⟨hclosed, mid, hhandled, hsame⟩
  · exact Or.inl hopen
  · have hgained := segHandler_gained (htabled.rewrites h.rewrites) h.owned
      (h.rewrites.scheduler ▸ hcurrent) (h.rewrites.tableOf ▸ htable) hword.page
      (h.ready _ hpage) h.roomy hclosed (hlast hclosed) hhandled
    rw [hsame hgained.access]
    exact Or.inr ⟨hclosed, hgained⟩

theorem map (m : Nat) : ∀ {s : Paging} {i : Nat},
    Underway quiet c pages start s (n + m) words tags →
    (∀ k, i ≤ k → k < i + m → pages k) → mapPages table s i m = some next →
      Underway quiet c pages start next n words tags ∧
        (∀ k, s.Own c k → next.Own c k) ∧ ∀ k, i ≤ k → k < i + m → next.Own c k := by
  induction m with
  | zero =>
      intro s i h _ hmap
      obtain rfl := Option.some.inj hmap
      exact ⟨h, fun _ => id, by omega⟩
  | succ m ih =>
      intro s i h hpages hmap
      obtain ⟨mid, hmid, hrest⟩ := Option.bind_eq_some_iff.mp hmap
      have hi : i < memoryPages := (mapPage_cases hmid).1
      have hgained := mapPage_gained (htabled.rewrites h.rewrites) h.owned
        (h.rewrites.scheduler ▸ hcurrent) (h.rewrites.tableOf ▸ htable) hi
        (h.ready i (hpages i (Nat.le_refl i) (by omega))) h.roomy hmid
      have hmid' : Underway quiet c pages start mid (n + m) words tags ∧
          (∀ k, s.Own c k → mid.Own c k) ∧ mid.Own c i := by
        rcases hgained with ⟨rfl, hown⟩ | hgained
        · exact ⟨h.less, fun _ => id, hown⟩
        · exact ⟨h.gain hgained, fun _ => hgained.own h.owned.framed,
            hgained.placed, hgained.access⟩
      obtain ⟨hunder, hkeeps, hown⟩ := hmid'
      obtain ⟨hnext, hkeeps', hmapped⟩ :=
        ih hunder (fun k hle hlt => hpages k (by omega) (by omega)) hrest
      refine ⟨hnext, fun k hk => hkeeps' k (hkeeps k hk), fun k hle hlt => ?_⟩
      rcases Nat.lt_or_eq_of_le hle with hmore | rfl
      · exact hmapped k hmore (by omega)
      · exact hkeeps' i hown

end Underway

theorem UserHeap.underway {s : Paging} {c n : Nat} {stop : Int} {blocks : List Block}
    {quiet : Prop} {pages : Nat → Prop} (h : s.UserHeap c stop blocks) (howned : s.Owned)
    (hready : ∀ k, pages k → s.Ready quiet c n k) (hroomy : quiet ∨ s.Roomy n) :
    Underway quiet c pages s s n s.memory
      (fun x => (tagAt Allocator.tagCodec 0 blocks x).isSome ∨ x = stop ∧ stop < usrSize) where
  rewrites := .refl s
  owned := howned
  inPlace _ := id
  own _ := id
  others _ _ _ := rfl
  ready := hready
  roomy := hroomy
  tagged x hx := by
    refine ⟨?_, Or.inl (h.inPlace x hx), rfl⟩
    have hextent := h.extent
    rcases hx with htag | ⟨rfl, hend⟩
    · obtain ⟨word, hword⟩ := Option.isSome_iff_exists.mp htag
      have hrange := tagAt_range _ hword
      have hbounded := h.bounded
      exact ⟨tagAt_aligned _ (Int.dvd_zero 4) hword, hrange.1, by omega⟩
    · exact ⟨hextent ▸ Int.natCast_dvd_natCast.mpr (four_dvd_total blocks), by omega, hend⟩
  epilogue := rfl

end RutgersOS.Assignment2.Paging
