import RutgersOS.Assignment2.Ownership

namespace RutgersOS.Assignment2.Paging

open RutgersOS.Memory RutgersOS.Pthread

def newTag : BitVec 32 :=
  tagWord (usrSize - 2 * hdrSize) 0

def tagged (s : Paging) (first last : Nat) (beside beside' : BitVec 32) : Paging :=
  (s.createPageHeader first beside).createPageFooter last beside'

theorem createPageHeader_memory (s : Paging) (offset : Nat) (beside : BitVec 32) :
    (s.createPageHeader offset beside).memory =
      if offset < memoryPages then s.memory.store (frameAddress offset) newTag
      else s.memory := by
  unfold createPageHeader
  dsimp only
  split
  · rfl
  · split
    · rfl
    · rfl

theorem createPageHeader_swapFile (s : Paging) (offset : Nat) (beside : BitVec 32) :
    (s.createPageHeader offset beside).swapFile =
      if ¬ offset < memoryPages ∧ s.fileOpen = true then
        (s.swapFile.store (frameAddress offset) newTag).store (frameAddress offset + 4)
          beside
      else s.swapFile := by
  unfold createPageHeader
  dsimp only
  split
  · next hlow => exact (if_neg fun h => h.1 hlow).symm
  · next hhigh =>
      split
      · next hopen => exact (if_pos ⟨hhigh, hopen⟩).symm
      · next hclosed => exact (if_neg fun h => hclosed h.2).symm

theorem createPageFooter_memory (s : Paging) (offset : Nat) (beside : BitVec 32) :
    (s.createPageFooter offset beside).memory =
      if offset < memoryPages then s.memory.store (frameAddress offset) newTag
      else s.memory := by
  unfold createPageFooter
  dsimp only
  split
  · rfl
  · split
    · rfl
    · rfl

theorem createPageFooter_swapFile (s : Paging) (offset : Nat) (beside : BitVec 32) :
    (s.createPageFooter offset beside).swapFile =
      if ¬ offset < memoryPages ∧ s.fileOpen = true then
        (s.swapFile.store (frameAddress (offset + 1) - hdrSize) newTag).store
          (frameAddress (offset + 1) - hdrSize + 4) beside
      else s.swapFile := by
  unfold createPageFooter
  dsimp only
  split
  · next hlow => exact (if_neg fun h => h.1 hlow).symm
  · next hhigh =>
      split
      · next hopen => exact (if_pos ⟨hhigh, hopen⟩).symm
      · next hclosed => exact (if_neg fun h => hclosed h.2).symm

theorem Started.bytes {s next : Paging} {stale : Int} {table first last : Nat}
    {beside beside' : BitVec 32} (h : Started s next stale table first last)
    (hstart : s.startThread stale table beside beside' = some next) :
    next.memory = (s.tagged first last beside beside').memory ∧
      next.swapFile = (s.tagged first last beside beside').swapFile := by
  obtain ⟨scheduler, -, hrest⟩ := Option.bind_eq_some_iff.mp hstart
  split at hrest
  · obtain ⟨other, hother, hmid⟩ := Option.bind_eq_some_iff.mp hrest
    obtain rfl : other = first := Option.some.inj (hother.symm.trans h.firstFree)
    obtain ⟨other', hother', heq⟩ := Option.bind_eq_some_iff.mp hmid
    rw [nextFreePage, (createPageHeader_same _ _ _).2.1] at hother'
    obtain rfl : other' = last := Option.some.inj (hother'.symm.trans h.lastFree)
    obtain rfl := Option.some.inj heq
    constructor
    · change (createPageFooter _ other' beside').memory = _
      rw [tagged, createPageFooter_memory, createPageFooter_memory]
      change (if _ then (createPageHeader _ other beside).memory.store _ newTag
        else (createPageHeader _ other beside).memory) = _
      rw [createPageHeader_memory, createPageHeader_memory]
      rfl
    · change (createPageFooter _ other' beside').swapFile = _
      rw [tagged, createPageFooter_swapFile, createPageFooter_swapFile]
      change (if _ ∧ (createPageHeader _ other beside).fileOpen = true then
        ((createPageHeader _ other beside).swapFile.store _ newTag).store _ _
        else (createPageHeader _ other beside).swapFile) = _
      simp only [createPageHeader_swapFile, (createPageHeader_same _ _ _).1.fileOpen]
      rfl
  · cases hrest

section Tagged

variable (s : Paging) (first last : Nat) (beside beside' : BitVec 32)

theorem tagged_memory_same {y : Int} (hfirst : first < memoryPages →
      y < frameAddress first ∨ frameAddress first + 4 ≤ y)
    (hlast : last < memoryPages → y < frameAddress last ∨ frameAddress last + 4 ≤ y) :
    (s.tagged first last beside beside').memory y = s.memory y := by
  have hheader : (s.createPageHeader first beside).memory y = s.memory y := by
    rw [createPageHeader_memory]
    split
    · next hlow => exact Bytes.store_outside _ _ (hfirst hlow)
    · rfl
  rw [tagged, createPageFooter_memory]
  split
  · next hlow => rw [Bytes.store_outside _ _ (hlast hlow), hheader]
  · exact hheader

theorem tagged_swapFile_same {y : Int} (hfirst : ¬ first < memoryPages →
      y < frameAddress first ∨ frameAddress first + 8 ≤ y)
    (hlast : ¬ last < memoryPages →
      y < frameAddress (last + 1) - 4 ∨ frameAddress (last + 1) + 4 ≤ y) :
    (s.tagged first last beside beside').swapFile y = s.swapFile y := by
  have hheader : (s.createPageHeader first beside).swapFile y = s.swapFile y := by
    rw [createPageHeader_swapFile]
    split
    · next hhigh =>
        have hout := hfirst hhigh.1
        rw [Bytes.store_outside _ _ (by omega), Bytes.store_outside _ _ (by omega)]
    · rfl
  rw [tagged, createPageFooter_swapFile]
  split
  · next hhigh =>
      have hout := hlast hhigh.1
      simp only [hdrSize]
      rw [Bytes.store_outside _ _ (by omega), Bytes.store_outside _ _ (by omega), hheader]
  · exact hheader

end Tagged

/-- A page is brought in place by `swap_in`, unless it is there already.  The
`swap_out` of the page that was in this place has cleared it. -/
def fetch (s : Paging) (frame page : Nat) : Paging :=
  if frame = page then s else (s.memset page).swapIn frame page

/-- The first and the last page of a new thread, in this order. -/
def fetchNew (s : Paging) (first last : Nat) : Paging :=
  (s.fetch first 0).fetch last lastPage

theorem fetch_swapFile (s : Paging) (frame page : Nat) :
    (s.fetch frame page).swapFile = s.swapFile ∧
      (s.fetch frame page).fileOpen = s.fileOpen := by
  unfold fetch
  split
  · exact ⟨rfl, rfl⟩
  · refine ⟨?_, (swapIn_tables (s.memset page) frame page).1.fileOpen⟩
    unfold swapIn
    dsimp only
    split
    · rfl
    · split
      · unfold readSlot
        split
        · rfl
        · rfl
      · rfl

/-- The bytes of the page, where the swap file is closed those of a cleared one. -/
theorem fetch_page (s : Paging) {frame page : Nat} (hframe : frame < totalPages)
    (hpage : page < memoryPages) {x : Int} (hlow : 0 ≤ x) (hhigh : x < pageSize) :
    (s.fetch frame page).memory (frameAddress page + x) =
      if frame < memoryPages then s.memory (frameAddress frame + x)
      else if s.fileOpen = true then s.swapFile (frameAddress (frame - memoryPages) + x)
      else 0 := by
  have hin : frameAddress page ≤ frameAddress page + x ∧
      frameAddress page + x < frameAddress page + pageSize := ⟨by omega, by omega⟩
  have hoffset : ∀ a, a + (frameAddress page + x - frameAddress page) = a + x := by
    intro a
    omega
  unfold fetch
  split
  · next heq =>
      rw [heq, if_pos hpage]
  · next hne =>
      unfold swapIn
      dsimp only
      split
      · next hmemory =>
          have hout : ¬ (frameAddress frame ≤ frameAddress page + x ∧
              frameAddress page + x < frameAddress frame + pageSize) := by
            simp only [frameAddress, pageSize] at hhigh ⊢
            omega
          change clearPage _ _ _ = _
          rw [clearPage, if_neg hout]
          have haway : ¬ (frameAddress page ≤ frameAddress frame + x ∧
              frameAddress frame + x < frameAddress page + pageSize) := by
            simp only [frameAddress, pageSize] at hhigh ⊢
            omega
          change copyPage _ _ _ _ _ = _
          rw [copyPage, if_pos hin, hoffset]
          change clearPage _ _ _ = _
          exact if_neg haway
      · rw [readSlot]
        change Paging.memory (if s.fileOpen = true then _ else _) _ = _
        split
        · change copyPage _ _ _ _ _ = _
          rw [copyPage, if_pos hin, hoffset]
          rfl
        · change clearPage _ _ _ = _
          rw [clearPage, if_pos hin]

theorem fetch_outside (s : Paging) {frame page : Nat} {y : Int}
    (hpage : y < frameAddress page ∨ frameAddress page + pageSize ≤ y)
    (hframe : frame < memoryPages →
      y < frameAddress frame ∨ frameAddress frame + pageSize ≤ y) :
    (s.fetch frame page).memory y = s.memory y := by
  have hcleared : (s.memset page).memory y = s.memory y := if_neg (by omega)
  unfold fetch
  split
  · rfl
  · unfold swapIn
    dsimp only
    split
    · next hmemory =>
        have hout := hframe hmemory
        change clearPage _ _ _ = _
        rw [clearPage, if_neg (by omega)]
        change copyPage _ _ _ _ _ = _
        rw [copyPage, if_neg (by omega)]
        exact hcleared
    · split
      · rw [readSlot]
        change Paging.memory (if s.fileOpen = true then _ else _) _ = _
        split
        · change copyPage _ _ _ _ _ = _
          rw [copyPage, if_neg (by omega)]
          exact hcleared
        · exact hcleared
      · exact hcleared

theorem fetch_congr {s t : Paging} (hopen : t.fileOpen = s.fileOpen) {frame page : Nat}
    (hframe : frame < totalPages) (hpage : page < memoryPages) {x : Int} (hlow : 0 ≤ x)
    (hhigh : x < pageSize)
    (hmemory : frame < memoryPages →
      t.memory (frameAddress frame + x) = s.memory (frameAddress frame + x))
    (hslot : ¬ frame < memoryPages →
      t.swapFile (frameAddress (frame - memoryPages) + x) =
        s.swapFile (frameAddress (frame - memoryPages) + x)) :
    (t.fetch frame page).memory (frameAddress page + x) =
      (s.fetch frame page).memory (frameAddress page + x) := by
  rw [fetch_page t hframe hpage hlow hhigh, fetch_page s hframe hpage hlow hhigh, hopen]
  split
  · next hin => exact hmemory hin
  · next hout =>
      split
      · exact hslot hout
      · rfl

section Words

variable {s t : Paging} {first last : Nat} {beside beside' : BitVec 32}
  (hmemory : t.memory = (s.tagged first last beside beside').memory)
  (hswapFile : t.swapFile = (s.tagged first last beside beside').swapFile)
  (hopen : t.fileOpen = s.fileOpen) (hlt : first < last) (hlast : last < totalPages)

section Memory

include hmemory

theorem tagged_page {frame : Nat} {x : Int} (hx : 4 ≤ x) (hx' : x < pageSize) :
    t.memory (frameAddress frame + x) = s.memory (frameAddress frame + x) := by
  rw [hmemory]
  apply tagged_memory_same
  · intro _
    simp only [frameAddress, pageSize] at hx' ⊢
    omega
  · intro _
    simp only [frameAddress, pageSize] at hx' ⊢
    omega

theorem fetchNew_beyond {y : Int} (hlow : usrSize ≤ y) :
    (t.fetchNew first last).memory y = (s.fetchNew first last).memory y := by
  have hlimit : memoryPages = 1536 := rfl
  have hpages : lastPage = 1535 := rfl
  rw [usrSize] at hlow
  have hframe : ∀ frame, frame < memoryPages → y < frameAddress frame ∨
      frameAddress frame + pageSize ≤ y := by
    intro frame hframe
    simp only [frameAddress, pageSize]
    omega
  unfold fetchNew
  rw [fetch_outside _ (hframe lastPage (by decide)) (hframe last),
    fetch_outside _ (hframe 0 (by decide)) (hframe first),
    fetch_outside _ (hframe lastPage (by decide)) (hframe last),
    fetch_outside _ (hframe 0 (by decide)) (hframe first), hmemory]
  apply tagged_memory_same
  · intro hmem
    have hout := hframe first hmem
    simp only [frameAddress, pageSize] at hout ⊢
    omega
  · intro hmem
    have hout := hframe last hmem
    simp only [frameAddress, pageSize] at hout ⊢
    omega

end Memory

section Both

include hmemory hswapFile hopen hlt hlast

theorem fetchNew_last {x : Int} (hlow : 4084 ≤ x) (hhigh : x < pageSize) :
    (t.fetchNew first last).memory (frameAddress lastPage + x) =
      (s.fetchNew first last).memory (frameAddress lastPage + x) := by
  have hpages : lastPage = 1535 := rfl
  have hlimit : memoryPages = 1536 := rfl
  have hsame : ∀ frame : Nat, frame ≠ 0 → frame ≠ first →
      (t.fetch first 0).memory (frameAddress frame + x) =
        (s.fetch first 0).memory (frameAddress frame + x) := by
    intro frame hzero hne
    have hpage : frameAddress 0 + pageSize ≤ frameAddress frame + x := by
      simp only [frameAddress, pageSize]
      omega
    have hframe : frameAddress frame + x < frameAddress first ∨
        frameAddress first + pageSize ≤ frameAddress frame + x := by
      simp only [frameAddress, pageSize] at hhigh ⊢
      omega
    rw [fetch_outside t (Or.inr hpage) fun _ => hframe,
      fetch_outside s (Or.inr hpage) fun _ => hframe]
    exact tagged_page hmemory (by omega) hhigh
  unfold fetchNew
  apply fetch_congr
  · rw [(fetch_swapFile t first 0).2, (fetch_swapFile s first 0).2, hopen]
  · exact hlast
  · decide
  · omega
  · exact hhigh
  · intro _
    exact hsame last (by omega) (by omega)
  · intro hslot
    rw [(fetch_swapFile t first 0).1, (fetch_swapFile s first 0).1, hswapFile]
    apply tagged_swapFile_same
    · intro _
      simp only [frameAddress, pageSize] at hhigh ⊢
      omega
    · intro _
      simp only [frameAddress, pageSize] at hhigh ⊢
      omega

theorem fetchNew_tail {address : Int} (hlow : usrSize - 12 ≤ address) :
    (t.fetchNew first last).memory.load address =
      (s.fetchNew first last).memory.load address := by
  refine Bytes.load_congr fun y hy _ => ?_
  rcases Int.lt_or_le y usrSize with hin | habove
  · have hlastPage : y = frameAddress lastPage + (y - frameAddress lastPage) := by omega
    rw [hlastPage]
    apply fetchNew_last hmemory hswapFile hopen hlt hlast
    · have husr : usrSize - 12 = frameAddress lastPage + 4084 := rfl
      omega
    · have husr : usrSize = frameAddress lastPage + pageSize := rfl
      omega
  · exact fetchNew_beyond hmemory habove

omit hmemory hswapFile hopen hlast in
theorem fetchNew_first (u : Paging) {x : Int} (hlow : 0 ≤ x) (hhigh : x < pageSize) :
    (u.fetchNew first last).memory x = (u.fetch first 0).memory (frameAddress 0 + x) := by
  have hzero : frameAddress 0 + x = x := by
    simp only [frameAddress]
    omega
  rw [hzero, fetchNew]
  apply fetch_outside
  · simp only [frameAddress, pageSize, lastPage, memoryPages] at hhigh ⊢
    omega
  · intro _
    simp only [frameAddress, pageSize] at hhigh ⊢
    omega

theorem fetchNew_header : (t.fetchNew first last).memory.load 0 =
    if first < memoryPages then newTag else (s.fetchNew first last).memory.load 0 := by
  have hlimit : memoryPages = 1536 := rfl
  have hfirst : ∀ u : Paging, ∀ x, 0 ≤ x → x < 0 + 4 →
      (u.fetchNew first last).memory x = (u.fetch first 0).memory (frameAddress 0 + x) :=
    fun u x hx hx' => fetchNew_first hlt u hx (by rw [pageSize]; omega)
  split
  · next hmem =>
      have hword : t.memory.load (frameAddress first) = newTag := by
        rw [hmemory, tagged, createPageFooter_memory, createPageHeader_memory, if_pos hmem]
        split
        · rw [Bytes.load_store_disjoint, Bytes.load_store_same]
          simp only [frameAddress, pageSize]
          omega
        · exact Bytes.load_store_same _ _ _
      have hbyte : ∀ x, 0 ≤ x → x < 4 →
          (t.fetchNew first last).memory x = t.memory (frameAddress first + x) := by
        intro x hx hx'
        rw [hfirst t x hx (by omega), fetch_page t (by omega) (by decide) hx
          (by rw [pageSize]; omega), if_pos hmem]
      rw [← hword]
      simp only [Bytes.load, Int.zero_add]
      rw [hbyte 3 (by omega) (by omega), hbyte 2 (by omega) (by omega),
        hbyte 1 (by omega) (by omega), hbyte 0 (by omega) (by omega), Int.add_zero]
  · next hslot =>
      refine Bytes.load_congr fun x hx hx' => ?_
      rw [hfirst t x hx hx', hfirst s x hx hx']
      apply fetch_congr hopen (by omega) (by decide) hx (by rw [pageSize]; omega)
      · exact fun hmem => absurd hmem hslot
      · intro _
        rw [hswapFile]
        apply tagged_swapFile_same
        · intro _
          simp only [frameAddress, pageSize]
          omega
        · intro _
          simp only [frameAddress, pageSize]
          omega

end Both

end Words

def SingleFree (memory : Bytes) : Prop :=
  ∃ size, usrSize - 2 * hdrSize ≤ size ∧ size ≤ usrSize ∧
    memory.load 0 = tagWord size 0 ∧ memory.load (size - hdrSize) = tagWord size 0 ∧
      memory.load size = tagWord 0 1

theorem size_of_tag {size : Int} (hlow : usrSize - 2 * hdrSize ≤ size)
    (hhigh : size ≤ usrSize) (h : tagWord size 0 = newTag) :
    size = usrSize - 2 * hdrSize := by
  have husr : usrSize = 6291456 := rfl
  have hhdr : hdrSize = 4 := rfl
  obtain ⟨n, rfl⟩ := Int.eq_ofNat_of_zero_le (by omega : 0 ≤ size)
  have hword : (tagWord n 0).toNat = 2 * n := by
    rw [tagWord, BitVec.ofInt_natCast, BitVec.ofInt_ofNat, BitVec.or_zero,
      BitVec.toNat_shiftLeft, BitVec.toNat_ofNat, Nat.shiftLeft_eq]
    omega
  have hnew : newTag.toNat = 2 * 6291448 := rfl
  rw [h, hnew] at hword
  omega

/-- The two routines write no byte of the frame, whatever the bytes are. -/
def Spared (s : Paging) (first last frame : Nat) : Prop :=
  ∀ (t : Paging) (beside beside' : BitVec 32), t.fileOpen = s.fileOpen →
    (t.tagged first last beside beside').content frame = t.content frame

/-- The frames that the two routines write to: a slot counts from the beginning of the
swap file, not from frame 1536 on. -/
def TagFrame (s : Paging) (first last frame : Nat) : Prop :=
  first < memoryPages ∧ frame = first ∨ last < memoryPages ∧ frame = last ∨
    s.fileOpen = true ∧ (memoryPages ≤ first ∧ frame = memoryPages + first ∨
      memoryPages ≤ last ∧ (frame = memoryPages + last ∨ frame = memoryPages + last + 1))

theorem spared_of_not_tagFrame {s : Paging} {first last frame : Nat}
    (h : ¬ s.TagFrame first last frame) : s.Spared first last frame := by
  have hlimit : memoryPages = 1536 := rfl
  intro t beside beside' hopen
  funext offset
  have hoffset := offset.isLt
  unfold content
  split
  · next hlow =>
      apply tagged_memory_same
      · intro hfirst
        have hne : frame ≠ first := fun heq => h (Or.inl ⟨hfirst, heq⟩)
        simp only [frameAddress, pageSize]
        omega
      · intro hlast
        have hne : frame ≠ last := fun heq => h (Or.inr (Or.inl ⟨hlast, heq⟩))
        simp only [frameAddress, pageSize]
        omega
  · next hslot =>
      cases hfile : s.fileOpen with
      | false =>
          have hclosed : t.fileOpen ≠ true := by
            rw [hopen, hfile]
            decide
          have hclosed' : (t.createPageHeader first beside).fileOpen ≠ true := by
            rw [(createPageHeader_same _ _ _).1.fileOpen]
            exact hclosed
          rw [tagged, createPageFooter_swapFile, if_neg fun hwrite => hclosed' hwrite.2,
            createPageHeader_swapFile, if_neg fun hwrite => hclosed hwrite.2]
      | true =>
          have hslots := fun hin => h (Or.inr (Or.inr ⟨hfile, hin⟩))
          apply tagged_swapFile_same
          · intro hfirst
            have hne : frame ≠ memoryPages + first :=
              fun heq => hslots (Or.inl ⟨Nat.not_lt.mp hfirst, heq⟩)
            simp only [frameAddress, pageSize]
            omega
          · intro hlast
            have hne : frame ≠ memoryPages + last :=
              fun heq => hslots (Or.inr ⟨Nat.not_lt.mp hlast, Or.inl heq⟩)
            have hne' : frame ≠ memoryPages + last + 1 :=
              fun heq => hslots (Or.inr ⟨Nat.not_lt.mp hlast, Or.inr heq⟩)
            simp only [frameAddress, pageSize]
            omega

theorem store_first (memory : Bytes) (address : Int) (word : BitVec 32) :
    memory.store address word address = Bytes.word8 word 0 :=
  if_pos rfl

section Written

variable (s : Paging) {first last : Nat} (beside beside' : BitVec 32)

theorem tagged_memory_first (hlt : first < last) (hfirst : first < memoryPages) :
    (s.tagged first last beside beside').memory (frameAddress first) =
      Bytes.word8 newTag 0 := by
  have hheader : (s.createPageHeader first beside).memory (frameAddress first) =
      Bytes.word8 newTag 0 := by
    rw [createPageHeader_memory, if_pos hfirst, store_first]
  rw [tagged, createPageFooter_memory]
  split
  · rw [Bytes.store_outside, hheader]
    simp only [frameAddress, pageSize]
    omega
  · exact hheader

theorem tagged_memory_last (hlast : last < memoryPages) :
    (s.tagged first last beside beside').memory (frameAddress last) =
      Bytes.word8 newTag 0 := by
  rw [tagged, createPageFooter_memory, if_pos hlast, store_first]

theorem tagged_swapFile_first (hlt : first < last) (hfirst : memoryPages ≤ first)
    (hopen : s.fileOpen = true) :
    (s.tagged first last beside beside').swapFile (frameAddress first) =
      Bytes.word8 newTag 0 := by
  have hhigh : ¬ first < memoryPages := Nat.not_lt.mpr hfirst
  have hheader : (s.createPageHeader first beside).swapFile (frameAddress first) =
      Bytes.word8 newTag 0 := by
    rw [createPageHeader_swapFile, if_pos ⟨hhigh, hopen⟩,
      Bytes.store_outside _ _ (by omega), store_first]
  rw [tagged, createPageFooter_swapFile]
  split
  · have hbefore : frameAddress first < frameAddress (last + 1) - hdrSize := by
      simp only [frameAddress, pageSize, hdrSize]
      omega
    rw [Bytes.store_outside _ _ (by omega), Bytes.store_outside _ _ (by omega), hheader]
  · exact hheader

theorem tagged_swapFile_last (hlast : memoryPages ≤ last) (hopen : s.fileOpen = true) :
    (s.tagged first last beside beside').swapFile (frameAddress (last + 1) - hdrSize) =
        Bytes.word8 newTag 0 ∧
      (s.tagged first last beside beside').swapFile (frameAddress (last + 1)) =
        Bytes.word8 beside' 0 := by
  have hwrite : ¬ last < memoryPages ∧ (s.createPageHeader first beside).fileOpen = true :=
    ⟨Nat.not_lt.mpr hlast, (createPageHeader_same _ _ _).1.fileOpen.trans hopen⟩
  have hend : frameAddress (last + 1) - hdrSize + 4 = frameAddress (last + 1) := by
    simp only [hdrSize]
    omega
  rw [tagged, createPageFooter_swapFile, if_pos hwrite]
  constructor
  · rw [Bytes.store_outside _ _ (by omega), store_first]
  · rw [hend, store_first]

end Written

def blank (s : Paging) : Paging :=
  { s with memory := fun _ => 0, swapFile := fun _ => 0 }

/-- A blank frame shows each write. -/
theorem not_spared_of_tagFrame {s : Paging} {first last frame : Nat} (hlt : first < last)
    (h : s.TagFrame first last frame) : ¬ s.Spared first last frame := by
  have hlimit : memoryPages = 1536 := rfl
  intro hspared
  have hbyte : ∀ offset : Fin 4096,
      (s.blank.tagged first last 0 1).content frame offset = 0 := by
    intro offset
    rw [hspared s.blank 0 1 rfl]
    unfold content
    split
    · rfl
    · rfl
  have hzero : ∀ a : Nat, frameAddress a + ((0 : Fin 4096) : Int) = frameAddress a := by
    intro a
    exact Int.add_zero _
  have hheader : Bytes.word8 newTag 0 ≠ 0 := by decide
  have hbeside : Bytes.word8 1 0 ≠ 0 := by decide
  rcases h with ⟨hfirst, rfl⟩ | ⟨hlast, rfl⟩ | ⟨hopen, ⟨hfirst, rfl⟩ | ⟨hlast, rfl | rfl⟩⟩
  · apply hheader
    rw [← hbyte 0, content, if_pos hfirst, hzero]
    exact (tagged_memory_first s.blank _ _ hlt hfirst).symm
  · apply hheader
    rw [← hbyte 0, content, if_pos hlast, hzero]
    exact (tagged_memory_last s.blank _ _ hlast).symm
  · apply hheader
    rw [← hbyte 0, content, if_neg (by omega), hzero, Nat.add_sub_cancel_left]
    exact (tagged_swapFile_first s.blank _ _ hlt hfirst hopen).symm
  · have hend : frameAddress last + ((4092 : Fin 4096) : Int) =
        frameAddress (last + 1) - hdrSize := by
      change frameAddress last + 4092 = _
      simp only [frameAddress, pageSize, hdrSize]
      omega
    apply hheader
    rw [← hbyte 4092, content, if_neg (by omega), Nat.add_sub_cancel_left, hend]
    exact (tagged_swapFile_last s.blank _ _ hlast hopen).1.symm
  · apply hbeside
    rw [← hbyte 0, content, if_neg (by omega), hzero, Nat.add_assoc,
      Nat.add_sub_cancel_left]
    exact (tagged_swapFile_last s.blank _ _ hlast hopen).2.symm

structure NewHeap (s next : Paging) (first last : Nat) : Prop where
  single : SingleFree (next.fetchNew first last).memory
  spared : ∀ t q frame, s.place (t, q) = some frame → s.Spared first last frame

/-- The old bytes of the two frames say what the routines leave out: the footer and the
terminator, and the header too where the first frame is a slot. -/
def Spelled (s : Paging) (first last : Nat) : Prop :=
  first < memoryPages ∧
      (s.fetchNew first last).memory.load (usrSize - 3 * hdrSize) = newTag ∧
      (s.fetchNew first last).memory.load (usrSize - 2 * hdrSize) = tagWord 0 1 ∨
    memoryPages ≤ first ∧ SingleFree (s.fetchNew first last).memory

theorem singleFree_iff {s t : Paging} {first last : Nat} {beside beside' : BitVec 32}
    (hmemory : t.memory = (s.tagged first last beside beside').memory)
    (hswapFile : t.swapFile = (s.tagged first last beside beside').swapFile)
    (hopen : t.fileOpen = s.fileOpen) (hlt : first < last) (hlast : last < totalPages) :
    SingleFree (t.fetchNew first last).memory ↔ s.Spelled first last := by
  have hhdr : hdrSize = 4 := rfl
  have hheader := fetchNew_header hmemory hswapFile hopen hlt hlast
  have htail : ∀ {address : Int}, usrSize - 12 ≤ address →
      (t.fetchNew first last).memory.load address =
        (s.fetchNew first last).memory.load address :=
    fun hlow => fetchNew_tail hmemory hswapFile hopen hlt hlast hlow
  rcases Nat.lt_or_ge first memoryPages with hmem | hslot
  · rw [if_pos hmem] at hheader
    constructor
    · rintro ⟨size, hlow, hhigh, hhead, hfoot, hend⟩
      obtain rfl := size_of_tag hlow hhigh (hhead.symm.trans hheader)
      refine Or.inl ⟨hmem, ?_, ?_⟩
      · have heq : usrSize - 3 * hdrSize = usrSize - 2 * hdrSize - hdrSize := by omega
        rw [heq, ← htail (by omega)]
        exact hfoot
      · rw [← htail (by omega)]
        exact hend
    · rintro (⟨-, hfoot, hend⟩ | ⟨hslot, -⟩)
      · refine ⟨usrSize - 2 * hdrSize, Int.le_refl _, by omega, hheader, ?_, ?_⟩
        · have heq : usrSize - 2 * hdrSize - hdrSize = usrSize - 3 * hdrSize := by omega
          rw [heq, htail (by omega)]
          exact hfoot
        · rw [htail (by omega)]
          exact hend
      · exact absurd hmem (Nat.not_lt.mpr hslot)
  · rw [if_neg (Nat.not_lt.mpr hslot)] at hheader
    have hsame : SingleFree (t.fetchNew first last).memory ↔
        SingleFree (s.fetchNew first last).memory := by
      apply exists_congr
      intro size
      rw [hheader]
      apply and_congr_right
      intro hlow
      rw [htail (by omega : usrSize - 12 ≤ size - hdrSize),
        htail (by omega : usrSize - 12 ≤ size)]
    rw [hsame]
    constructor
    · exact fun h => Or.inr ⟨hslot, h⟩
    · rintro (⟨hmem, -⟩ | ⟨-, h⟩)
      · exact absurd hmem (Nat.not_lt.mpr hslot)
      · exact h

theorem Started.frames {s next : Paging} {stale : Int} {table first last : Nat}
    (h : Started s next stale table first last) : first < last ∧ last < totalPages := by
  obtain ⟨-, -, hbelow⟩ := nextFreePage_spec h.firstFree
  obtain ⟨-, hlast, hfree, -⟩ := nextFree_spec totalPages h.lastFree
  rw [Nat.zero_add] at hlast
  refine ⟨Nat.lt_of_not_le fun hle => ?_, hlast⟩
  rcases Nat.lt_or_eq_of_le hle with hlt | rfl
  · rw [Function.update_of_ne (Nat.ne_of_lt hlt), hbelow last hlt] at hfree
    cases hfree
  · rw [Function.update_self] at hfree
    cases hfree

/-- The heap of a new thread is a free block only where the old bytes of its frames
happen to end it. -/
theorem new_heap_iff {s next : Paging} {stale : Int} {table : Nat}
    {beside beside' : BitVec 32}
    (hstart : s.startThread stale table beside beside' = some next) :
    ∃ first last, s.nextFreePage = some first ∧
      nextFree (Function.update s.masterTable first true) 0 totalPages = some last ∧
      (NewHeap s next first last ↔ s.Spelled first last ∧
        ∀ t q frame, s.place (t, q) = some frame → ¬ s.TagFrame first last frame) := by
  obtain ⟨first, last, hstarted⟩ := startThread_spec hstart
  obtain ⟨hlt, hlast⟩ := hstarted.frames
  obtain ⟨hmemory, hswapFile⟩ := hstarted.bytes hstart
  have hsingle := singleFree_iff hmemory hswapFile hstarted.fileOpen hlt hlast
  refine ⟨first, last, hstarted.firstFree, hstarted.lastFree, ?_⟩
  constructor
  · rintro ⟨hfree, hspared⟩
    refine ⟨hsingle.mp hfree, ?_⟩
    intro t q frame hplace htagged
    exact not_spared_of_tagFrame hlt htagged (hspared t q frame hplace)
  · rintro ⟨hspelled, houtside⟩
    constructor
    · exact hsingle.mpr hspelled
    · intro t q frame hplace
      exact spared_of_not_tagFrame (houtside t q frame hplace)

/-- Main alone, over memory in which the end of frame 2 says what the routines leave
out. -/
def mainSpelled : Paging :=
  let footer := frameAddress 3 - 3 * hdrSize
  let memory : Bytes := fun _ => 0
  initializeMemory ((memory.store footer newTag).store (footer + hdrSize) (tagWord 0 1))
    (fun _ => 0) (fun _ => 0) 0 0

theorem new_heap_iff_main :
    ∃ next, mainSpelled.startThread 0 2000 0 0 = some next ∧ NewHeap mainSpelled next 1 2 := by
  obtain ⟨next, hnext⟩ := Option.isSome_iff_exists.mp
    (by decide +kernel : (mainSpelled.startThread 0 2000 0 0).isSome = true)
  obtain ⟨first, last, hfirst, hlast, hiff⟩ := new_heap_iff hnext
  obtain rfl : first = 1 := Option.some.inj (hfirst.symm.trans
    (by decide +kernel : mainSpelled.nextFreePage = some 1))
  obtain rfl : last = 2 := Option.some.inj (hlast.symm.trans
    (by decide +kernel :
      nextFree (Function.update mainSpelled.masterTable 1 true) 0 totalPages = some 2))
  refine ⟨next, hnext, hiff.mpr ⟨Or.inl ?_, ?_⟩⟩
  · exact ⟨by decide, by decide +kernel, by decide +kernel⟩
  · intro t q frame hplace htagged
    rw [mainSpelled, initializeMemory_place] at hplace
    split at hplace
    · next hmain =>
        obtain rfl := Option.some.inj hplace
        have hpages : memoryPages = 1536 := rfl
        have hend : lastPage = 1535 := rfl
        simp only [TagFrame] at htagged
        omega
    · cases hplace

/-- The first thread that main creates gets frames 1 and 2, whose bytes are zero: there
is no footer at the end. -/
theorem new_heap_fails : ¬ ∀ s, Reachable s → ∀ stale table beside beside' next,
    s.Admitted (.create stale table beside beside') →
      s.startThread stale table beside beside' = some next →
        ∀ first last, s.nextFreePage = some first →
          nextFree (Function.update s.masterTable first true) 0 totalPages = some last →
            NewHeap s next first last := by
  intro h
  obtain ⟨next, hnext⟩ := Option.isSome_iff_exists.mp
    (by decide +kernel : (mainAlone.startThread 0 2000 0 0).isSome = true)
  obtain ⟨first, last, hstarted⟩ := startThread_spec hnext
  obtain ⟨hlt, hlast⟩ := hstarted.frames
  obtain ⟨hmemory, hswapFile⟩ := hstarted.bytes hnext
  have hfirst : first = 1 := Option.some.inj (hstarted.firstFree.symm.trans
    (by decide +kernel : mainAlone.nextFreePage = some 1))
  subst hfirst
  have hsecond : last = 2 := Option.some.inj (hstarted.lastFree.symm.trans
    (by decide +kernel :
      nextFree (Function.update mainAlone.masterTable 1 true) 0 totalPages = some 2))
  subst hsecond
  have hheap := h mainAlone mainAlone_run.reachable 0 2000 0 0 next mainAlone_admitted hnext
    1 2 hstarted.firstFree hstarted.lastFree
  have hspelled := (singleFree_iff hmemory hswapFile hstarted.fileOpen hlt hlast).mp
    hheap.single
  have hfooter : (mainAlone.fetchNew 1 2).memory.load (usrSize - 3 * hdrSize) ≠ newTag := by
    decide +kernel
  rcases hspelled with ⟨-, hfoot, -⟩ | ⟨hslot, -⟩
  · exact hfooter hfoot
  · exact absurd hslot (by decide)

end RutgersOS.Assignment2.Paging
