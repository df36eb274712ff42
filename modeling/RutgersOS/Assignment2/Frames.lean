import RutgersOS.Memory.Bytes
import RutgersOS.Assignment2.Scheduler

namespace RutgersOS.Assignment2

open RutgersOS.Memory

/-! The frames of `Assignment2`: the user region of `memory`, from address 0 on,
and the slots of the swap file.  A page is 4096 bytes. -/

def pageSize : Int := 4096

def totalPages : Nat := 5632

def memoryPages : Nat := 1536

def maxThreads : Nat := 128

def unmapped : Nat := 6969

/-- `cells` are the 16-bit words of the OS region, and `pageTables` holds where
in it the table of a thread starts, or `none` for NULL. -/
structure Paging where
  scheduler : Scheduler
  pageTables : Nat → Option Nat
  cells : Nat → Nat
  masterTable : Nat → Bool
  memory : Bytes
  swapFile : Bytes
  accessible : Nat → Bool
  fileOpen : Bool

namespace Paging

def frameAddress (frame : Nat) : Int :=
  frame * pageSize

/-- `memcpy(target + des, source + src, pageSize)` -/
def copyPage (target : Bytes) (des : Int) (source : Bytes) (src : Int) : Bytes :=
  fun x => if des ≤ x ∧ x < des + pageSize then source (src + (x - des)) else target x

/-- `memset(target + des, 0, pageSize)` -/
def clearPage (target : Bytes) (des : Int) : Bytes :=
  fun x => if des ≤ x ∧ x < des + pageSize then 0 else target x

def protect (s : Paging) (frame : Nat) (access : Bool) : Paging :=
  { s with accessible := Function.update s.accessible frame access }

def mark (s : Paging) (frame : Nat) (used : Bool) : Paging :=
  { s with masterTable := Function.update s.masterTable frame used }

def setCell (s : Paging) (cell value : Nat) : Paging :=
  { s with cells := Function.update s.cells cell value }

def nextFree (masterTable : Nat → Bool) (i : Nat) : Nat → Option Nat
  | 0 => none
  | n + 1 =>
      if masterTable i = false then some i else nextFree masterTable (i + 1) n

/-- The C function returns no value when every page is in use. -/
def nextFreePage (s : Paging) : Option Nat :=
  nextFree s.masterTable 0 totalPages

def memcpy (s : Paging) (des page : Nat) : Paging :=
  { s with
    memory :=
      copyPage s.memory (frameAddress des) s.memory (frameAddress page) }

def memset (s : Paging) (page : Nat) : Paging :=
  { s with memory := clearPage s.memory (frameAddress page) }

/-- `lseek` to a slot of the swap file and `read`, which fails once it is closed. -/
def readSlot (s : Paging) (slot des : Nat) : Paging :=
  if s.fileOpen then
    { s with
      memory :=
        copyPage s.memory (frameAddress des) s.swapFile (frameAddress slot) }
  else s

def writeSlot (s : Paging) (slot page : Nat) : Paging :=
  if s.fileOpen then
    { s with
      swapFile :=
        copyPage s.swapFile (frameAddress slot) s.memory (frameAddress page) }
  else s

def swapIn (s : Paging) (newPage des : Nat) : Paging :=
  let s := s.protect des true
  let s :=
    if newPage < memoryPages then
      ((s.protect newPage true).memcpy des newPage).memset newPage
    else if newPage < totalPages then s.readSlot (newPage - memoryPages) des
    else s
  s.protect des true

def swapOut (s : Paging) (page : Nat) : Option (Nat × Paging) := do
  let freePage ← s.nextFreePage
  let s := s.protect page true
  let s :=
    if freePage < memoryPages then
      ((s.protect freePage true).memcpy freePage page).protect freePage false
    else s.writeSlot (freePage - memoryPages) page
  some (freePage, s.memset page)

/-- A page in its frame, byte by byte. -/
def content (s : Paging) (frame : Nat) (offset : Fin 4096) : UInt8 :=
  if frame < memoryPages then s.memory (frameAddress frame + offset)
  else s.swapFile (frameAddress (frame - memoryPages) + offset)

theorem copyPage_address (target source : Bytes) (src : Int) (frame des : Nat)
    (offset : Fin 4096) :
    copyPage target (frameAddress des) source src (frameAddress frame + offset) =
      if frame = des then source (src + offset)
      else target (frameAddress frame + offset) := by
  have hoffset := offset.isLt
  rcases Classical.em (frame = des) with rfl | hne
  · rw [if_pos rfl, copyPage, if_pos (by simp only [pageSize]; omega)]
    exact congrArg source (by omega)
  · rw [if_neg hne, copyPage, if_neg (by simp only [frameAddress, pageSize]; omega)]

theorem memcpy_content (s : Paging) {des page : Nat} (hdes : des < memoryPages)
    (hpage : page < memoryPages) (frame : Nat) :
    (s.memcpy des page).content frame =
      if frame = des then s.content page else s.content frame := by
  funext offset
  rw [apply_ite (fun bytes : Fin 4096 → UInt8 => bytes offset)]
  unfold content
  rcases Nat.lt_or_ge frame memoryPages with hlow | hhigh
  · rw [if_pos hlow, if_pos hpage, if_pos hlow]
    exact copyPage_address s.memory s.memory (frameAddress page) frame des offset
  · rw [if_neg (Nat.not_lt.mpr hhigh), if_neg (Nat.not_lt.mpr hhigh),
      if_neg (Nat.ne_of_gt (Nat.lt_of_lt_of_le hdes hhigh))]
    rfl

theorem memset_content (s : Paging) {page frame : Nat} (hne : frame ≠ page) :
    (s.memset page).content frame = s.content frame := by
  funext offset
  unfold content
  split
  · have hoffset := offset.isLt
    rw [memset]
    dsimp only
    rw [clearPage, if_neg (by simp only [frameAddress, pageSize]; omega)]
  · rfl

theorem readSlot_content (s : Paging) {slot des : Nat} (hdes : des < memoryPages)
    (hopen : s.fileOpen = true) (frame : Nat) :
    (s.readSlot slot des).content frame =
      if frame = des then s.content (memoryPages + slot) else s.content frame := by
  funext offset
  rw [apply_ite (fun bytes : Fin 4096 → UInt8 => bytes offset), readSlot, if_pos hopen]
  unfold content
  rcases Nat.lt_or_ge frame memoryPages with hlow | hhigh
  · rw [if_pos hlow, if_neg (Nat.not_lt.mpr (Nat.le_add_right _ _)),
      Nat.add_sub_cancel_left, if_pos hlow]
    exact copyPage_address s.memory s.swapFile (frameAddress slot) frame des offset
  · rw [if_neg (Nat.not_lt.mpr hhigh), if_neg (Nat.not_lt.mpr hhigh),
      if_neg (Nat.ne_of_gt (Nat.lt_of_lt_of_le hdes hhigh))]

theorem writeSlot_content (s : Paging) {slot page : Nat} (hpage : page < memoryPages)
    (hopen : s.fileOpen = true) (frame : Nat) :
    (s.writeSlot slot page).content frame =
      if frame = memoryPages + slot then s.content page else s.content frame := by
  funext offset
  rw [apply_ite (fun bytes : Fin 4096 → UInt8 => bytes offset), writeSlot,
    if_pos hopen]
  unfold content
  rcases Nat.lt_or_ge frame memoryPages with hlow | hhigh
  · rw [if_pos hlow, if_pos hlow,
      if_neg (Nat.ne_of_lt (Nat.lt_of_lt_of_le hlow (Nat.le_add_right _ _)))]
  · rw [if_neg (Nat.not_lt.mpr hhigh), if_pos hpage,
      if_neg (Nat.not_lt.mpr hhigh)]
    refine (copyPage_address _ _ _ _ _ _).trans ?_
    rcases Classical.em (frame = memoryPages + slot) with rfl | hne
    · rw [if_pos (Nat.add_sub_cancel_left _ _), if_pos rfl]
    · rw [if_neg (by omega), if_neg hne]

theorem protect_content (s : Paging) (frame : Nat) (access : Bool) :
    (s.protect frame access).content = s.content :=
  rfl

theorem nextFree_spec {masterTable : Nat → Bool} (n : Nat) :
    ∀ {i frame : Nat}, nextFree masterTable i n = some frame →
      i ≤ frame ∧ frame < i + n ∧ masterTable frame = false ∧
        ∀ f, i ≤ f → f < frame → masterTable f = true := by
  induction n with
  | zero => exact nofun
  | succ n ih =>
      intro i frame h
      rw [nextFree] at h
      split at h
      · next hfree =>
          obtain rfl := Option.some.inj h
          exact ⟨Nat.le_refl _, by omega, hfree, fun f _ _ => by omega⟩
      · next hused =>
          obtain ⟨hlow, hhigh, hfree, hbelow⟩ := ih h
          refine ⟨by omega, by omega, hfree, fun f hf hlt => ?_⟩
          rcases Nat.lt_or_eq_of_le hf with hmore | rfl
          · exact hbelow f hmore hlt
          · simpa using hused

structure SameTables (s next : Paging) : Prop where
  scheduler : next.scheduler = s.scheduler
  pageTables : next.pageTables = s.pageTables
  cells : next.cells = s.cells
  fileOpen : next.fileOpen = s.fileOpen

namespace SameTables

theorem refl (s : Paging) : SameTables s s where
  scheduler := rfl
  pageTables := rfl
  cells := rfl
  fileOpen := rfl

theorem trans {first second third : Paging} (h : SameTables first second)
    (h' : SameTables second third) : SameTables first third where
  scheduler := h'.scheduler.trans h.scheduler
  pageTables := h'.pageTables.trans h.pageTables
  cells := h'.cells.trans h.cells
  fileOpen := h'.fileOpen.trans h.fileOpen

end SameTables

def SameMarks (s next : Paging) : Prop :=
  SameTables s next ∧ next.masterTable = s.masterTable

theorem SameMarks.after {first second third : Paging} (h : SameMarks first second)
    (h' : SameMarks second third) : SameMarks first third :=
  ⟨h.1.trans h'.1, h'.2.trans h.2⟩

theorem protect_tables (s : Paging) (frame : Nat) (access : Bool) :
    SameMarks s (s.protect frame access) :=
  ⟨⟨rfl, rfl, rfl, rfl⟩, rfl⟩

theorem memcpy_tables (s : Paging) (des page : Nat) : SameMarks s (s.memcpy des page) :=
  ⟨⟨rfl, rfl, rfl, rfl⟩, rfl⟩

theorem memset_tables (s : Paging) (page : Nat) : SameMarks s (s.memset page) :=
  ⟨⟨rfl, rfl, rfl, rfl⟩, rfl⟩

theorem readSlot_tables (s : Paging) (slot des : Nat) :
    SameMarks s (s.readSlot slot des) := by
  unfold readSlot
  split
  · exact ⟨⟨rfl, rfl, rfl, rfl⟩, rfl⟩
  · exact ⟨.refl s, rfl⟩

theorem writeSlot_tables (s : Paging) (slot page : Nat) :
    SameMarks s (s.writeSlot slot page) := by
  unfold writeSlot
  split
  · exact ⟨⟨rfl, rfl, rfl, rfl⟩, rfl⟩
  · exact ⟨.refl s, rfl⟩

theorem swapIn_tables (s : Paging) (newPage des : Nat) :
    SameMarks s (s.swapIn newPage des) := by
  have hstart := protect_tables s des true
  unfold swapIn
  dsimp only
  split
  · have hopened := hstart.after (protect_tables _ newPage true)
    have hcopied := hopened.after (memcpy_tables _ des newPage)
    have hcleared := hcopied.after (memset_tables _ newPage)
    exact hcleared.after (protect_tables _ des true)
  · split
    · have hread := hstart.after (readSlot_tables _ (newPage - memoryPages) des)
      exact hread.after (protect_tables _ des true)
    · exact hstart.after (protect_tables _ des true)

theorem swapOut_tables {s next : Paging} {page frame : Nat}
    (h : s.swapOut page = some (frame, next)) :
    s.nextFreePage = some frame ∧ SameTables s next ∧
      next.masterTable = s.masterTable := by
  obtain ⟨freePage, hfree, heq⟩ := Option.bind_eq_some_iff.mp h
  obtain ⟨rfl, rfl⟩ := Prod.mk.inj (Option.some.inj heq)
  refine ⟨hfree, ?_⟩
  have hstart := protect_tables s page true
  split
  · have hopened := hstart.after (protect_tables _ freePage true)
    have hcopied := hopened.after (memcpy_tables _ freePage page)
    have hclosed := hcopied.after (protect_tables _ freePage false)
    exact hclosed.after (memset_tables _ page)
  · have hwritten := hstart.after (writeSlot_tables _ (freePage - memoryPages) page)
    exact hwritten.after (memset_tables _ page)

/-- `swap_out` copies a page, if the swap file is not needed or is open. -/
theorem swapOut_content {s next : Paging} {page frame : Nat}
    (h : s.swapOut page = some (frame, next)) (hpage : page < memoryPages)
    (hne : frame ≠ page) (hfile : frame < memoryPages ∨ s.fileOpen = true) :
    next.content frame = s.content page ∧
      ∀ other, other ≠ page → other ≠ frame →
        next.content other = s.content other := by
  obtain ⟨freePage, -, heq⟩ := Option.bind_eq_some_iff.mp h
  obtain ⟨rfl, rfl⟩ := Prod.mk.inj (Option.some.inj heq)
  have hcopied : ∀ other, other ≠ page →
      (Paging.memset (if freePage < memoryPages then
        (((s.protect page true).protect freePage true).memcpy freePage
          page).protect freePage false
        else (s.protect page true).writeSlot (freePage - memoryPages) page)
        page).content other =
      if other = freePage then s.content page else s.content other := by
    intro other hother
    rw [memset_content _ hother]
    rcases Nat.lt_or_ge freePage memoryPages with hlow | hhigh
    · rw [if_pos hlow, protect_content, memcpy_content _ hlow hpage]
      rfl
    · have hopen : (s.protect page true).fileOpen = true :=
        hfile.resolve_left (Nat.not_lt.mpr hhigh)
      rw [if_neg (Nat.not_lt.mpr hhigh), writeSlot_content _ hpage hopen,
        Nat.add_sub_cancel' hhigh]
      rfl
  refine ⟨(hcopied freePage hne).trans (if_pos rfl), ?_⟩
  intro other hother hframe
  exact (hcopied other hother).trans (if_neg hframe)

theorem swapIn_content (s : Paging) {newPage des : Nat} (hdes : des < memoryPages)
    (hne : newPage ≠ des) (hpage : newPage < totalPages)
    (hfile : newPage < memoryPages ∨ s.fileOpen = true) :
    (s.swapIn newPage des).content des = s.content newPage ∧
      ∀ other, other ≠ newPage → other ≠ des →
        (s.swapIn newPage des).content other = s.content other := by
  have hcopied : ∀ other, other ≠ newPage →
      (s.swapIn newPage des).content other =
        if other = des then s.content newPage else s.content other := by
    intro other hother
    unfold swapIn
    dsimp only
    rw [protect_content]
    rcases Nat.lt_or_ge newPage memoryPages with hlow | hhigh
    · rw [if_pos hlow, memset_content _ hother, memcpy_content _ hdes hlow]
      rfl
    · have hopen : (s.protect des true).fileOpen = true :=
        hfile.resolve_left (Nat.not_lt.mpr hhigh)
      rw [if_neg (Nat.not_lt.mpr hhigh), if_pos hpage,
        readSlot_content _ hdes hopen, Nat.add_sub_cancel' hhigh]
      rfl
  refine ⟨(hcopied des (Ne.symm hne)).trans (if_pos rfl), ?_⟩
  intro other hother hframe
  exact (hcopied other hother).trans (if_neg hframe)

end Paging

end RutgersOS.Assignment2
