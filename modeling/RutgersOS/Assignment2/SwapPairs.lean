import RutgersOS.Assignment2.FrameTable

namespace RutgersOS.Assignment2.Paging

open RutgersOS.Memory

/-! A `swap_out` and the `swap_in` that undoes it, with other swaps between them.
Once the swap file is closed, `write` and `read` fail and nobody looks. -/

theorem memset_content_self (s : Paging) {page : Nat} (hpage : page < memoryPages) :
    (s.memset page).content page = fun _ => 0 := by
  funext offset
  have hoffset := offset.isLt
  rw [content, if_pos hpage, memset]
  dsimp only
  rw [clearPage, if_pos (by simp only [pageSize]; omega)]

theorem writeSlot_kept (s : Paging) {slot page other : Nat} (hpage : page < memoryPages)
    (hne : other ≠ memoryPages + slot) :
    (s.writeSlot slot page).content other = s.content other := by
  cases hopen : s.fileOpen with
  | true => rw [writeSlot_content s hpage hopen, if_neg hne]
  | false => rw [writeSlot, if_neg (Bool.eq_false_iff.mp hopen)]

theorem readSlot_kept (s : Paging) {slot des other : Nat} (hdes : des < memoryPages)
    (hne : other ≠ des) : (s.readSlot slot des).content other = s.content other := by
  cases hopen : s.fileOpen with
  | true => rw [readSlot_content s hdes hopen, if_neg hne]
  | false => rw [readSlot, if_neg (Bool.eq_false_iff.mp hopen)]

theorem swapOut_kept {s next : Paging} {page frame : Nat}
    (h : s.swapOut page = some (frame, next)) (hpage : page < memoryPages) :
    next.content page = (fun _ => 0) ∧
      ∀ other, other ≠ page → other ≠ frame → next.content other = s.content other := by
  obtain ⟨freePage, -, heq⟩ := Option.bind_eq_some_iff.mp h
  obtain ⟨rfl, rfl⟩ := Prod.mk.inj (Option.some.inj heq)
  refine ⟨memset_content_self _ hpage, fun other hother hframe => ?_⟩
  rw [memset_content _ hother]
  rcases Nat.lt_or_ge freePage memoryPages with hlow | hhigh
  · rw [if_pos hlow, protect_content, memcpy_content _ hlow hpage, if_neg hframe]
    rfl
  · rw [if_neg (Nat.not_lt.mpr hhigh), writeSlot_kept _ hpage (by omega)]
    rfl

theorem swapIn_memory (s : Paging) {newPage des : Nat} (hdes : des < memoryPages)
    (hlow : newPage < memoryPages) (other : Nat) :
    (s.swapIn newPage des).content other =
      if other = newPage then (fun _ => 0)
      else if other = des then s.content newPage else s.content other := by
  unfold swapIn
  dsimp only
  rw [if_pos hlow, protect_content]
  split
  · next heq =>
      rw [heq]
      exact memset_content_self _ hlow
  · next hne =>
      rw [memset_content _ hne, memcpy_content _ hdes hlow]
      rfl

theorem swapIn_kept (s : Paging) {newPage des other : Nat} (hdes : des < memoryPages)
    (hsource : other ≠ newPage) (hother : other ≠ des) :
    (s.swapIn newPage des).content other = s.content other := by
  rcases Nat.lt_or_ge newPage memoryPages with hlow | hhigh
  · rw [swapIn_memory s hdes hlow, if_neg hsource, if_neg hother]
  · unfold swapIn
    dsimp only
    rw [if_neg (Nat.not_lt.mpr hhigh), protect_content]
    split
    · rw [readSlot_kept _ hdes hother]
      rfl
    · rfl

theorem nextFreePage_memory {s : Paging} {frame : Nat} (h : s.nextFreePage = some frame) :
    frame < memoryPages ↔ ∃ f < memoryPages, s.masterTable f = false := by
  constructor
  · exact fun hlow => ⟨frame, hlow, (nextFreePage_spec h).2.1⟩
  · rintro ⟨f, hlow, hfree⟩
    exact Nat.lt_of_le_of_lt (nextFreePage_le h hfree) hlow

inductive Swaps (kept : Nat) (s : Paging) : Paging → Prop
  | done : Swaps kept s s
  | swapOut {mid next : Paging} {page frame : Nat} (hrun : Swaps kept s mid)
      (hpage : page < memoryPages) (hne : page ≠ kept)
      (hout : mid.swapOut page = some (frame, next)) : Swaps kept s next
  | swapIn {mid : Paging} {newPage des : Nat} (hrun : Swaps kept s mid)
      (hdes : des < memoryPages) (hsource : newPage ≠ kept) (hne : des ≠ kept) :
      Swaps kept s (mid.swapIn newPage des)
  | mark {mid : Paging} {frame : Nat} (used : Bool) (hrun : Swaps kept s mid)
      (hne : frame ≠ kept) : Swaps kept s (mid.mark frame used)

/-- A used frame is not the first free one, so it stays out of every swap. -/
theorem Swaps.keeps {kept : Nat} {s later : Paging} (h : Swaps kept s later)
    (hused : s.masterTable kept = true) :
    later.masterTable kept = true ∧ later.content kept = s.content kept ∧
      later.fileOpen = s.fileOpen := by
  induction h with
  | done => exact ⟨hused, rfl, rfl⟩
  | @swapOut mid next page frame _ hpage hne hout ih =>
      obtain ⟨hmark, hcontent, hopen⟩ := ih
      obtain ⟨hfree, htables, hmarks⟩ := swapOut_tables hout
      have hframe : kept ≠ frame := by
        rintro rfl
        rw [(nextFreePage_spec hfree).2.1] at hmark
        cases hmark
      refine ⟨by rw [hmarks]; exact hmark, ?_, htables.fileOpen.trans hopen⟩
      exact ((swapOut_kept hout hpage).2 kept hne.symm hframe).trans hcontent
  | @swapIn mid newPage des _ hdes hsource hne ih =>
      obtain ⟨hmark, hcontent, hopen⟩ := ih
      obtain ⟨htables, hmarks⟩ := swapIn_tables mid newPage des
      refine ⟨by rw [hmarks]; exact hmark, ?_, htables.fileOpen.trans hopen⟩
      exact (swapIn_kept mid hdes hsource.symm hne.symm).trans hcontent
  | mark used _ hne ih =>
      obtain ⟨hmark, hcontent, hopen⟩ := ih
      exact ⟨(Function.update_of_ne hne.symm _ _).trans hmark, hcontent, hopen⟩

/-- The page that `swap_out` stores comes back, and nothing else changes. -/
def UndoesSwapOut (s : Paging) (page : Nat) : Prop :=
  ∃ frame next, s.swapOut page = some (frame, next) ∧ s.masterTable frame = false ∧
    next.content frame = s.content page ∧ next.content page = (fun _ => 0) ∧
    (∀ other, other ≠ page → other ≠ frame → next.content other = s.content other) ∧
    ∀ later, Swaps frame (next.mark frame true) later → ∀ des < memoryPages,
      des ≠ frame → (later.swapIn frame des).content des = s.content page ∧
        ∀ other, other ≠ des → other ≠ frame →
          (later.swapIn frame des).content other = later.content other

def Blank (s : Paging) : Prop :=
  (∀ frame < memoryPages, s.content frame = fun _ => 0) ∧
    ∀ frame, s.nextFreePage = some frame → s.content frame = fun _ => 0

theorem exists_swapOut {s : Paging} (hfree : ∃ f < totalPages, s.masterTable f = false)
    (page : Nat) : ∃ frame next, s.nextFreePage = some frame ∧
      s.swapOut page = some (frame, next) := by
  obtain ⟨f, hlt, hfree⟩ := hfree
  obtain ⟨frame, hnext⟩ := Option.ne_none_iff_exists'.mp (nextFreePage_exists hlt hfree)
  obtain ⟨next, hout⟩ := swapOut_returns hnext page
  exact ⟨frame, next, hnext, hout⟩

theorem memoryPages_le_of_full {s : Paging}
    (hfull : ∀ f < memoryPages, s.masterTable f = true) {frame : Nat}
    (hunused : s.masterTable frame = false) : memoryPages ≤ frame := by
  refine Nat.not_lt.mp fun hlow => ?_
  rw [hfull frame hlow] at hunused
  cases hunused

theorem undoesSwapOut_of_storable {s : Paging} {page : Nat} (hpage : page < memoryPages)
    (hused : s.masterTable page = true) (hfree : ∃ f < totalPages, s.masterTable f = false)
    (hstore : (∃ f < memoryPages, s.masterTable f = false) ∨ s.fileOpen = true) :
    s.UndoesSwapOut page := by
  obtain ⟨frame, next, hnext, hout⟩ := exists_swapOut hfree page
  obtain ⟨hframe, hunused, -⟩ := nextFreePage_spec hnext
  have hne : frame ≠ page := by
    rintro rfl
    rw [hunused] at hused
    cases hused
  have hfile : frame < memoryPages ∨ s.fileOpen = true :=
    hstore.imp_left (nextFreePage_memory hnext).mpr
  obtain ⟨hstored, hothers⟩ := swapOut_content hout hpage hne hfile
  have htables := (swapOut_tables hout).2.1
  refine ⟨frame, next, hout, hunused, hstored, (swapOut_kept hout hpage).1, hothers, ?_⟩
  intro later hrun des hdes hother
  obtain ⟨-, hcontent, hopen⟩ := hrun.keeps (Function.update_self _ _ _)
  have hfile' : frame < memoryPages ∨ later.fileOpen = true :=
    hfile.imp_right (hopen.trans htables.fileOpen).trans
  obtain ⟨hback, hrest⟩ := swapIn_content later hdes hother.symm hframe hfile'
  refine ⟨hback.trans (hcontent.trans hstored), fun other hdes hframe => ?_⟩
  exact hrest other hframe hdes

section Closed

variable {s : Paging} (hopen : s.fileOpen = false)

include hopen

theorem writeSlot_fileClosed (slot page : Nat) : s.writeSlot slot page = s := by
  rw [writeSlot, if_neg (Bool.eq_false_iff.mp hopen)]

theorem readSlot_fileClosed (slot des : Nat) : s.readSlot slot des = s := by
  rw [readSlot, if_neg (Bool.eq_false_iff.mp hopen)]

theorem swapIn_fileClosed {newPage des : Nat} (hslot : memoryPages ≤ newPage) :
    (s.swapIn newPage des).content = s.content := by
  have hprotected : (s.protect des true).fileOpen = false := hopen
  unfold swapIn
  dsimp only
  rw [if_neg (Nat.not_lt.mpr hslot), readSlot_fileClosed hprotected, ite_self]
  rfl

theorem swapOut_fileClosed {next : Paging} {page frame : Nat}
    (h : s.swapOut page = some (frame, next)) (hslot : memoryPages ≤ frame)
    {other : Nat} (hother : other ≠ page) : next.content other = s.content other := by
  obtain ⟨freePage, -, heq⟩ := Option.bind_eq_some_iff.mp h
  obtain ⟨rfl, rfl⟩ := Prod.mk.inj (Option.some.inj heq)
  have hprotected : (s.protect page true).fileOpen = false := hopen
  rw [memset_content _ hother, if_neg (Nat.not_lt.mpr hslot), writeSlot_fileClosed hprotected]
  rfl

end Closed

/-- A blank memory stays blank, as no slot can be read. -/
theorem Swaps.blank {kept : Nat} {s later : Paging} (h : Swaps kept s later)
    (hopen : s.fileOpen = false)
    (hblank : ∀ frame < memoryPages, s.content frame = fun _ => 0) :
    later.fileOpen = false ∧ ∀ frame < memoryPages, later.content frame = fun _ => 0 := by
  induction h with
  | done => exact ⟨hopen, hblank⟩
  | @swapOut mid next page frame _ hpage _ hout ih =>
      obtain ⟨hopen, hzero⟩ := ih
      obtain ⟨hfree, htables, -⟩ := swapOut_tables hout
      refine ⟨htables.fileOpen.trans hopen, fun other hother => ?_⟩
      rcases Classical.em (other = page) with rfl | hne
      · exact (swapOut_kept hout hpage).1
      · rcases Classical.em (other = frame) with rfl | hframe
        · have hcopied := (swapOut_content hout hpage hne (Or.inl hother)).1
          exact hcopied.trans (hzero page hpage)
        · exact ((swapOut_kept hout hpage).2 other hne hframe).trans (hzero other hother)
  | @swapIn mid newPage des _ hdes _ _ ih =>
      obtain ⟨hopen, hzero⟩ := ih
      obtain ⟨htables, -⟩ := swapIn_tables mid newPage des
      refine ⟨htables.fileOpen.trans hopen, fun other hother => ?_⟩
      rcases Nat.lt_or_ge newPage memoryPages with hlow | hhigh
      · rw [swapIn_memory mid hdes hlow, hzero newPage hlow, hzero other hother, ite_self,
          ite_self]
      · rw [swapIn_fileClosed hopen hhigh]
        exact hzero other hother
  | mark used _ _ ih => exact ih

theorem UndoesSwapOut.blank {s : Paging} {page : Nat} (h : s.UndoesSwapOut page)
    (hpage : page < memoryPages) (hfull : ∀ f < memoryPages, s.masterTable f = true)
    (hopen : s.fileOpen = false) : s.Blank := by
  obtain ⟨frame, next, hout, hunused, hstored, hzeroed, hothers, hback⟩ := h
  obtain ⟨hnext, htables, -⟩ := swapOut_tables hout
  have hslot := memoryPages_le_of_full hfull hunused
  have hframe : s.content frame = s.content page := by
    rw [← hstored]
    exact (swapOut_fileClosed hopen hout hslot (by omega)).symm
  -- the page is read back from where it was not written
  have hread : ∀ des < memoryPages, next.content des = s.content page := by
    intro des hdes
    have hcontent := (hback _ .done des hdes (by omega)).1
    have hclosed : (next.mark frame true).fileOpen = false := htables.fileOpen.trans hopen
    rw [swapIn_fileClosed hclosed hslot] at hcontent
    exact hcontent
  have hzero : s.content page = fun _ => 0 := (hread page hpage).symm.trans hzeroed
  refine ⟨fun des hdes => ?_, fun frame' hframe' => ?_⟩
  · rcases Classical.em (des = page) with rfl | hne
    · exact hzero
    · rw [← hothers des hne (by omega), hread des hdes, hzero]
  · obtain rfl := Option.some.inj (hnext.symm.trans hframe')
    exact hframe.trans hzero

theorem undoesSwapOut_of_blank {s : Paging} {page : Nat} (hpage : page < memoryPages)
    (hfree : ∃ f < totalPages, s.masterTable f = false)
    (hfull : ∀ f < memoryPages, s.masterTable f = true) (hopen : s.fileOpen = false)
    (hblank : s.Blank) : s.UndoesSwapOut page := by
  obtain ⟨frame, next, hnext, hout⟩ := exists_swapOut hfree page
  obtain ⟨-, hunused, -⟩ := nextFreePage_spec hnext
  have hslot := memoryPages_le_of_full hfull hunused
  obtain ⟨hzeroed, hothers⟩ := swapOut_kept hout hpage
  have hclosed : next.fileOpen = false := (swapOut_tables hout).2.1.fileOpen.trans hopen
  have hzero := hblank.1 page hpage
  refine ⟨frame, next, hout, hunused, ?_, hzeroed, hothers, ?_⟩
  · rw [swapOut_fileClosed hopen hout hslot (by omega), hblank.2 frame hnext, hzero]
  · intro later hrun des hdes _
    have hmemory : ∀ other < memoryPages, (next.mark frame true).content other =
        fun _ => 0 := by
      intro other hother
      rcases Classical.em (other = page) with rfl | hne
      · exact hzeroed
      · exact (hothers other hne (by omega)).trans (hblank.1 other hother)
    obtain ⟨hstill, hlater⟩ := hrun.blank hclosed hmemory
    rw [swapIn_fileClosed hstill hslot]
    exact ⟨(hlater des hdes).trans hzero.symm, fun _ _ _ => rfl⟩

/-- `swap_in` undoes `swap_out` across all other swaps exactly if the page had where to
go, a frame of the memory or the open file, or there was nothing to lose. -/
theorem swapOut_undone_iff {s : Paging} {page : Nat} (hpage : page < memoryPages)
    (hused : s.masterTable page = true)
    (hfree : ∃ f < totalPages, s.masterTable f = false) :
    s.UndoesSwapOut page ↔
      (∃ f < memoryPages, s.masterTable f = false) ∨ s.fileOpen = true ∨ s.Blank := by
  rcases Classical.em (∃ f < memoryPages, s.masterTable f = false) with hroom | hroom
  · exact iff_of_true (undoesSwapOut_of_storable hpage hused hfree (Or.inl hroom))
      (Or.inl hroom)
  · cases hopen : s.fileOpen with
    | true =>
        exact iff_of_true (undoesSwapOut_of_storable hpage hused hfree (Or.inr hopen))
          (Or.inr (Or.inl rfl))
    | false =>
        have hfull : ∀ f < memoryPages, s.masterTable f = true :=
          fun f hf => Bool.not_eq_false _ ▸ fun hno => hroom ⟨f, hf, hno⟩
        constructor
        · exact fun h => Or.inr (Or.inr (h.blank hpage hfull hopen))
        · rintro (hmemory | hfile | hblank)
          · exact absurd hmemory hroom
          · cases hfile
          · exact undoesSwapOut_of_blank hpage hfree hfull hopen hblank

/-- The header page of main, before any other page is used. -/
theorem swapOut_undone_iff_first :
    (initializeMemory (fun _ => 0) (fun _ => 0) (fun _ => 0) 0 0).UndoesSwapOut 0 :=
  (swapOut_undone_iff (by decide) (by decide) ⟨1, by decide, by decide⟩).mpr
    (Or.inr (Or.inl rfl))

/-- The memory is full, and main has exited. -/
def orphaned : Paging :=
  { initializeMemory (fun _ => 0) (fun _ => 0) (fun _ => 0) 0 0 with
    masterTable := fun i => i < memoryPages
    fileOpen := false }

/-- The header page of `orphaned` is zeroed and stored nowhere. -/
theorem swapOut_loses_page :
    orphaned.masterTable 0 = true ∧ orphaned.masterTable memoryPages = false ∧
      ¬ orphaned.UndoesSwapOut 0 := by
  refine ⟨by decide, by decide, fun h => ?_⟩
  have hfull : ∀ f < memoryPages, orphaned.masterTable f = true := fun f hf =>
    decide_eq_true hf
  have hblank := (h.blank (by decide) hfull rfl).1 0 (by decide)
  have hheader : orphaned.content 0 2 = 192 := by decide
  rw [hblank] at hheader
  cases hheader

end RutgersOS.Assignment2.Paging
