import RutgersOS.Assignment2.Frames

namespace RutgersOS.Assignment2

open RutgersOS.Memory RutgersOS.Pthread

/-! The page moves of `my_pthread.c` and `mymalloc.c`.  A table is where it starts
in `cells`; reading past its end, or past the end of `pageTables`, is `none`. -/

namespace Paging

/-- `newAddr = swap_out(page); table[k] = newAddr; masterTable[newAddr] = '1'` -/
def rehome (s : Paging) (page cell : Nat) : Option Paging := do
  let (newAddr, s) ← s.swapOut page
  some ((s.setCell cell newAddr).mark newAddr true)

/-! `my_pthread_yield` has five copies of the code that moves pages. -/

/-- `while (table[i] != 6969) { ... i++; }`, which leaves `storedi`. -/
def swapOutPages (table : Nat) (s : Paging) (i : Nat) : Nat → Option (Nat × Paging)
  | 0 => none
  | n + 1 =>
      if s.cells (table + i) = unmapped then some (i, s)
      else do
        let s ← s.rehome i (table + i)
        swapOutPages table s (i + 1) n

/-- `for (i = 0; i < storedi; i++) masterTable[i] = '0';` -/
def unmarkBelow (s : Paging) (storedi : Nat) : Paging :=
  { s with masterTable := fun i => if i < storedi then false else s.masterTable i }

/-- The pages of the thread that gives way. -/
def switchOut (s : Paging) (table : Nat) : Option Paging := do
  let (storedi, s) ← swapOutPages table s 0 memoryPages
  let (newAddr, s) ← s.swapOut (memoryPages - 1)
  let s := s.mark (memoryPages - 1) false
  let s := (s.setCell (table + (memoryPages - 1)) newAddr).mark newAddr true
  some (s.unmarkBelow storedi)

/-- Page `i` of the thread that resumes, with what a copy of the code does first
to the frame `i`. -/
def bringIn (evict : Paging → Option Paging) (s : Paging) (table i : Nat) :
    Option Paging := do
  let s ←
    if s.cells (table + i) ≠ i then do
      let s ← evict s
      let page := s.cells (table + i)
      some ((s.swapIn page i).mark page false)
    else some s
  some ((s.setCell (table + i) i).mark i true)

def bringInPages (evict : Nat → Paging → Option Paging) (table : Nat) (s : Paging)
    (i : Nat) : Nat → Option Paging
  | 0 => none
  | n + 1 =>
      if s.cells (table + i) = unmapped then some s
      else do
        let s ← s.bringIn (evict i) table i
        bringInPages evict table s (i + 1) n

/-- The copies that follow a `switchOut` evict nothing. -/
def switchIn (s : Paging) (table : Nat) : Option Paging := do
  let s ← bringInPages (fun _ => some) table s 0 memoryPages
  s.bringIn some table (memoryPages - 1)

/-- The first entry of one table that names the frame is moved. -/
def evictEntry (frame table : Nat) (s : Paging) (k : Nat) : Nat → Option Paging
  | 0 => some s
  | n + 1 =>
      if s.cells (table + k) = frame then s.rehome frame (table + k)
      else evictEntry frame table s (k + 1) n

/-- `while (pageTables[j]) { for (k = 0; ...) { ... break; } j++; }` -/
def evictFrom (frame : Nat) (s : Paging) (j : Nat) : Nat → Option Paging
  | 0 => none
  | n + 1 =>
      match s.pageTables j with
      | none => some s
      | some table => do
          let s ← evictEntry frame table s 0 memoryPages
          evictFrom frame s (j + 1) n

def evict (frame : Nat) (s : Paging) : Option Paging :=
  evictFrom frame s 0 maxThreads

/-- The loop over the last entries, which stops at the first match. -/
def evictLastFrom (s : Paging) (j : Nat) : Nat → Option Paging
  | 0 => none
  | n + 1 =>
      match s.pageTables j with
      | none => some s
      | some table =>
          if s.cells (table + (memoryPages - 1)) = memoryPages - 1 then
            s.rehome (memoryPages - 1) (table + (memoryPages - 1))
          else evictLastFrom s (j + 1) n

def evictLast (s : Paging) : Option Paging :=
  s.evictLastFrom 0 maxThreads

/-- The copies that run when `current` is NULL. -/
def resumePages (s : Paging) (table : Nat) : Option Paging := do
  let s ← bringInPages evict table s 0 memoryPages
  s.bringIn evictLast table (memoryPages - 1)

def switchPages (s : Paging) : Switch → Option Paging
  | .stay => some s
  | .resume next => do
      let table ← s.pageTables next
      s.resumePages table
  | .swap temp next => do
      let tempTable ← s.pageTables temp
      let nextTable ← s.pageTables next
      let s ← s.switchOut tempTable
      s.switchIn nextTable

def myPthreadYield (s : Paging) : Option Paging := do
  let (scheduler, switch) ← s.scheduler.myPthreadYield
  switchPages { s with scheduler := scheduler } switch

def usrSize : Int := 6291456

def hdrSize : Int := 4

/-- `*ptr = size; *ptr = *ptr << 1; *ptr = *ptr | allocation;` -/
def tagWord (size allocation : Int) : BitVec 32 :=
  (BitVec.ofInt 32 size <<< 1) ||| BitVec.ofInt 32 allocation

/-- `createPageHeader`.  A slot gets eight bytes, the last four of which come from
beside the local `header`. -/
def createPageHeader (s : Paging) (offset : Nat) (beside : BitVec 32) : Paging :=
  let header := tagWord (usrSize - 2 * hdrSize) 0
  if offset < memoryPages then
    { s with memory := s.memory.store (frameAddress offset) header }
  else if s.fileOpen then
    { s with
      swapFile :=
        (s.swapFile.store (frameAddress offset) header).store
          (frameAddress offset + 4) beside }
  else s

def createPageFooter (s : Paging) (offset : Nat) (beside : BitVec 32) : Paging :=
  let header := tagWord (usrSize - 2 * hdrSize) 0
  if offset < memoryPages then
    { s with memory := s.memory.store (frameAddress offset) header }
  else if s.fileOpen then
    let address := frameAddress (offset + 1) - hdrSize
    { s with
      swapFile := (s.swapFile.store address header).store (address + 4) beside }
  else s

/-- The page table of a new thread at `table`, up to the loop over its entries. -/
def createTable (s : Paging) (table : Nat) (beside beside' : BitVec 32) :
    Option Paging := do
  let pageIndex ← s.nextFreePage
  let s := (s.setCell table pageIndex).mark pageIndex true
  let s := (s.protect pageIndex true).createPageHeader pageIndex beside
  let endIndex ← s.nextFreePage
  let s := (s.setCell (table + (memoryPages - 1)) endIndex).mark endIndex true
  let s := (s.protect endIndex true).createPageFooter endIndex beside'
  let s :=
    { s with
      cells := fun cell =>
        if table < cell ∧ cell < table + (memoryPages - 1) then unmapped
        else s.cells cell }
  some ((s.protect pageIndex false).protect endIndex false)

/-- `my_pthread_create` up to its call of `my_pthread_yield`, where the allocator
gives the OS memory at `table` for the page table. -/
def startThread (s : Paging) (stale : Int) (table : Nat)
    (beside beside' : BitVec 32) : Option Paging := do
  let thread := s.scheduler.threadIDS
  let scheduler ← s.scheduler.enqueueThread stale
  if thread < maxThreads then
    createTable
      { s with
        scheduler := scheduler
        pageTables := Function.update s.pageTables thread (some table) }
      table beside beside'
  else none

def myPthreadCreate (s : Paging) (stale : Int) (table : Nat)
    (beside beside' : BitVec 32) : Option Paging := do
  let s ← s.startThread stale table beside beside'
  s.myPthreadYield

/-- `my_pthread_exit` up to its call of `my_pthread_yield`. -/
def leave (s : Paging) (valuePtr : Int) : Option Paging := do
  let current ← s.scheduler.current
  let scheduler ← s.scheduler.removeCurrent valuePtr
  some
    { s with
      scheduler := scheduler
      fileOpen := if current = 0 then false else s.fileOpen }

def myPthreadExit (s : Paging) (valuePtr : Int) : Option Paging := do
  let s ← s.leave valuePtr
  s.myPthreadYield

def releasePage (s : Paging) (table i : Nat) : Paging :=
  let page := s.cells (table + i)
  let s := if page < memoryPages then s.protect page true else s
  s.mark page false

def releasePages (table : Nat) (s : Paging) (i : Nat) : Nat → Option Paging
  | 0 => none
  | n + 1 =>
      if s.cells (table + i) = unmapped then some s
      else releasePages table (s.releasePage table i) (i + 1) n

/-- The end of `my_pthread_join`: the page table and the struct are released. -/
def releaseThread (s : Paging) (thread : Nat) : Option Paging := do
  let table ← s.pageTables thread
  let s ← releasePages table s 0 memoryPages
  let s := s.releasePage table (memoryPages - 1)
  some { s with scheduler := s.scheduler.setThread thread none }

def myPthreadJoin (s : Paging) (thread : Nat) : Option Paging := do
  let struct ← s.scheduler.threads thread
  if struct.state ≠ .completed then s.myPthreadYield
  else s.releaseThread thread

inductive Scan where
  | found (j : Nat)
  | ended

def scanEntries (offset table : Nat) (s : Paging) (j : Nat) : Nat → Option Scan
  | 0 => none
  | n + 1 =>
      if s.cells (table + j) = unmapped then some .ended
      else if s.cells (table + j) = offset then some (.found j)
      else scanEntries offset table s (j + 1) n

/-- The frame is moved out of the entry in `cell` and given to `current`. -/
def takeFrame (s : Paging) (currentTable offset cell : Nat) : Option Paging := do
  let (newAddr, s) ← s.swapOut offset
  let s := s.mark offset false
  let s := (s.setCell cell newAddr).mark newAddr true
  some ((s.setCell (currentTable + offset) offset).mark offset true)

/-- `exit(EXIT_FAILURE)` after the loop ends the process. -/
def scanTables (currentTable offset : Nat) (s : Paging) (i : Nat) :
    Nat → Option Paging
  | 0 => none
  | n + 1 => do
      let table ← s.pageTables i
      match ← scanEntries offset table s 0 memoryPages with
      | .found j => do
          let s ← s.takeFrame currentTable offset (table + j)
          some (s.protect offset true)
      | .ended => do
          let s ←
            if s.cells (table + (memoryPages - 1)) = offset then
              s.takeFrame currentTable offset (table + (memoryPages - 1))
            else some s
          scanTables currentTable offset s (i + 1) n

def segHandler (s : Paging) (offset : Nat) : Option Paging := do
  let current ← s.scheduler.current
  let currentTable ← s.pageTables current
  if s.masterTable offset = false then
    some (((s.protect offset true).setCell (currentTable + offset) offset).mark
      offset true)
  else scanTables currentTable offset s 0 maxThreads

def touchPage (s : Paging) (page : Nat) : Option Paging :=
  if s.accessible page then some s else s.segHandler page

/-- An access to the user region or to the page behind it, which `my_pthread_create`
protects together with the slot of that number. -/
def touch (s : Paging) (address : Int) : Option Paging :=
  if 0 ≤ address ∧ address < usrSize + pageSize then
    s.touchPage (address / pageSize).toNat
  else none

def storeByte (s : Paging) (address : Int) (byte : UInt8) : Option Paging := do
  let s ← s.touch address
  some { s with memory := Function.update s.memory address byte }

def touchWord (s : Paging) (address : Int) : Option Paging := do
  let s ← s.touch address
  s.touch (address + 3)

def wordSize (word : BitVec 32) : Int :=
  ((word &&& ~~~ 1#32).sshiftRight 1).toInt

def wordAllocation (word : BitVec 32) : Int :=
  (word &&& 1#32).toInt

def getHeader (p : Int) : Int := p - hdrSize

def getSize (s : Paging) (ptr : Int) : Option (Int × Paging) := do
  let s ← s.touchWord (getHeader ptr)
  some (wordSize (s.memory.load (getHeader ptr)), s)

def getAllocation (s : Paging) (ptr : Int) : Option (Int × Paging) := do
  let s ← s.touchWord (getHeader ptr)
  some (wordAllocation (s.memory.load (getHeader ptr)), s)

def getFooter (s : Paging) (p : Int) : Option (Int × Paging) := do
  let (size, s) ← s.getSize p
  some (p + size - 2 * hdrSize, s)

def setValue (s : Paging) (p size allocation : Int) : Option Paging := do
  let s ← s.touchWord p
  some { s with memory := s.memory.store p (tagWord size allocation) }

/-- The loop of `findFit`, which the fuel cuts off where it would not end. -/
def findFit (extendedSize : Int) (s : Paging) (ptr : Int) :
    Nat → Option (Option Int × Paging)
  | 0 => none
  | n + 1 => do
      let (blockSize, s) ← s.getSize ptr
      let (allocBit, s) ← s.getAllocation ptr
      if blockSize = 0 then some (none, s)
      else if allocBit ≠ 1 ∧ extendedSize ≤ blockSize then some (some ptr, s)
      else findFit extendedSize s (ptr + blockSize) n

/-- One round of the loop over the pages of a block. -/
def mapPage (s : Paging) (currentTable i : Nat) : Option Paging :=
  if i < memoryPages then
    if s.masterTable i = true ∧ s.cells (currentTable + i) = i then some s
    else do
      let s ← if s.masterTable i = true then evict i s else some s
      some (((s.setCell (currentTable + i) i).mark i true).protect i true)
  else none

def mapPages (currentTable : Nat) (s : Paging) (i : Nat) : Nat → Option Paging
  | 0 => some s
  | n + 1 => do
      let s ← s.mapPage currentTable i
      mapPages currentTable s (i + 1) n

def mapBlock (s : Paging) (headerPage footerPage : Nat) : Option Paging := do
  let current ← s.scheduler.current
  let currentTable ← s.pageTables current
  mapPages currentTable s headerPage (footerPage + 1 - headerPage)

def splitBlock (s : Paging) (ptr extendedSize difference : Int) : Option Paging := do
  let (footer, s) ← s.getFooter ptr
  let s ← s.setValue footer difference 0
  let s ← s.setValue (getHeader ptr) extendedSize 1
  let footerPointer := ptr + extendedSize - 2 * hdrSize
  let s ← s.setValue footerPointer extendedSize 1
  s.setValue (footerPointer + 4) difference 0

def occupyBlock (s : Paging) (ptr oldSize : Int) : Option Paging := do
  let s ← s.setValue (getHeader ptr) oldSize 1
  let (footer, s) ← s.getFooter ptr
  s.setValue footer oldSize 1

def extendedSize (size : Nat) : Int :=
  size + (4 - size % 4) % 4 + 2 * hdrSize

def mapAllocated (s : Paging) (ptr : Int) : Option (Option Int × Paging) := do
  let headerAddress := getHeader ptr
  let (footerAddress, s) ← s.getFooter ptr
  let headerPage := (headerAddress / pageSize).toNat
  let footerPage := (footerAddress / pageSize).toNat
  let s ← s.mapBlock headerPage footerPage
  some (some ptr, s)

def myallocate (s : Paging) (size fuel : Nat) : Option (Option Int × Paging) :=
  if size = 0 then some (none, s)
  else if usrSize < size then some (none, s)
  else do
    let (found, s) ← findFit (extendedSize size) s hdrSize fuel
    match found with
    | none => some (none, s)
    | some ptr => do
        let (oldSize, s) ← s.getSize ptr
        let difference := oldSize - extendedSize size
        if extendedSize size < oldSize ∧ 2 * hdrSize < difference then do
          let s ← s.splitBlock ptr (extendedSize size) difference
          s.mapAllocated ptr
        else if extendedSize size < oldSize ∧
            0 ≤ difference ∧ difference ≤ 2 * hdrSize then do
          let s ← s.occupyBlock ptr oldSize
          s.mapAllocated ptr
        else some (none, s)

/-- The first call of `myallocate`.  `memory`, `swapFile` and `cells` hold what
was there before, and the table of the main thread starts at `table`. -/
def initializeMemory (memory swapFile : Bytes) (cells : Nat → Nat) (table : Nat)
    (stale : Int) : Paging :=
  let memory := memory.store 0 (tagWord usrSize 0)
  let memory := memory.store usrSize 1
  let memory := memory.store (usrSize - hdrSize) (tagWord usrSize 0)
  { scheduler := .initializeScheduler stale
    pageTables := Function.update (fun _ => none) 0 (some table)
    cells := fun cell =>
      if cell = table then 0
      else if cell = table + (memoryPages - 1) then memoryPages - 1
      else if table < cell ∧ cell < table + (memoryPages - 1) then unmapped
      else cells cell
    masterTable := fun i => i = 0 ∨ i = memoryPages - 1
    memory := memory
    swapFile := fun x => if 0 ≤ x ∧ x < 16 * 1024 * 1024 then 0 else swapFile x
    accessible := fun i => i = 0 ∨ i = memoryPages - 1 ∨ i = memoryPages
    fileOpen := true }

end Paging

end RutgersOS.Assignment2
