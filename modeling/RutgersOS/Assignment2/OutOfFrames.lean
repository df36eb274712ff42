import RutgersOS.Assignment2.Exhaustion

namespace RutgersOS.Assignment2.Paging.Exhausted

open RutgersOS.Memory RutgersOS.Pthread

/-! Once every frame is in use `nextFreePage` ends without a `return`.  These are the
calls that go on with the value `stray` that it leaves. -/

def nextFreePage (stray : Nat) (s : Paging) : Nat :=
  s.nextFreePage.getD stray

def swapOut (stray : Nat) (s : Paging) (page : Nat) : Nat × Paging :=
  let freePage := nextFreePage stray s
  let s := s.protect page true
  if freePage < memoryPages then
    let s := ((s.protect freePage true).memcpy freePage page).protect freePage false
    (freePage, s.memset page)
  else if freePage < totalPages then
    (freePage, (s.writeSlot (freePage - memoryPages) page).memset page)
  -- `return 6969;`
  else (unmapped, s)

def rehome (stray : Nat) (s : Paging) (page cell : Nat) : Paging :=
  let (newAddr, s) := swapOut stray s page
  (s.setCell cell newAddr).mark newAddr true

def swapOutPages (stray table : Nat) (s : Paging) (i : Nat) : Nat → Option (Nat × Paging)
  | 0 => none
  | n + 1 =>
      if s.cells (table + i) = unmapped then some (i, s)
      else swapOutPages stray table (rehome stray s i (table + i)) (i + 1) n

def switchOut (stray : Nat) (s : Paging) (table : Nat) : Option Paging := do
  let (storedi, s) ← swapOutPages stray table s 0 memoryPages
  let (newAddr, s) := swapOut stray s (memoryPages - 1)
  let s := s.mark (memoryPages - 1) false
  let s := (s.setCell (table + (memoryPages - 1)) newAddr).mark newAddr true
  some (s.unmarkBelow storedi)

def evictEntry (stray frame table : Nat) (s : Paging) (k : Nat) : Nat → Paging
  | 0 => s
  | n + 1 =>
      if s.cells (table + k) = frame then rehome stray s frame (table + k)
      else evictEntry stray frame table s (k + 1) n

def evictFrom (stray frame : Nat) (s : Paging) (j : Nat) : Nat → Option Paging
  | 0 => none
  | n + 1 =>
      match s.pageTables j with
      | none => some s
      | some table =>
          evictFrom stray frame (evictEntry stray frame table s 0 memoryPages) (j + 1) n

def evict (stray frame : Nat) (s : Paging) : Option Paging :=
  evictFrom stray frame s 0 maxThreads

def evictLastFrom (stray : Nat) (s : Paging) (j : Nat) : Nat → Option Paging
  | 0 => none
  | n + 1 =>
      match s.pageTables j with
      | none => some s
      | some table =>
          if s.cells (table + (memoryPages - 1)) = memoryPages - 1 then
            some (rehome stray s (memoryPages - 1) (table + (memoryPages - 1)))
          else evictLastFrom stray s (j + 1) n

def evictLast (stray : Nat) (s : Paging) : Option Paging :=
  evictLastFrom stray s 0 maxThreads

def resumePages (stray : Nat) (s : Paging) (table : Nat) : Option Paging := do
  let s ← bringInPages (evict stray) table s 0 memoryPages
  s.bringIn (evictLast stray) table (memoryPages - 1)

def switchPages (stray : Nat) (s : Paging) : Switch → Option Paging
  | .stay => some s
  | .resume next => do
      let table ← s.pageTables next
      resumePages stray s table
  | .swap temp next => do
      let tempTable ← s.pageTables temp
      let nextTable ← s.pageTables next
      let s ← switchOut stray s tempTable
      s.switchIn nextTable

def myPthreadYield (stray : Nat) (s : Paging) : Option Paging := do
  let (scheduler, switch) ← s.scheduler.myPthreadYield
  switchPages stray { s with scheduler := scheduler } switch

/-- Each of the two calls of `nextFreePage` leaves a value of its own. -/
def createTable (stray stray' : Nat) (s : Paging) (table : Nat)
    (beside beside' : BitVec 32) : Paging :=
  let pageIndex := nextFreePage stray s
  let s := (s.setCell table pageIndex).mark pageIndex true
  let s := (s.protect pageIndex true).createPageHeader pageIndex beside
  let endIndex := nextFreePage stray' s
  let s := (s.setCell (table + (memoryPages - 1)) endIndex).mark endIndex true
  let s := (s.protect endIndex true).createPageFooter endIndex beside'
  let s :=
    { s with
      cells := fun cell =>
        if table < cell ∧ cell < table + (memoryPages - 1) then unmapped
        else s.cells cell }
  (s.protect pageIndex false).protect endIndex false

def startThread (stray stray' : Nat) (s : Paging) (stale : Int) (table : Nat)
    (beside beside' : BitVec 32) : Option Paging := do
  let thread := s.scheduler.threadIDS
  let scheduler ← s.scheduler.enqueueThread stale
  if thread < maxThreads then
    some (createTable stray stray'
      { s with
        scheduler := scheduler
        pageTables := Function.update s.pageTables thread (some table) }
      table beside beside')
  else none

def myPthreadCreate (stray stray' : Nat) (s : Paging) (stale : Int) (table : Nat)
    (beside beside' : BitVec 32) : Option Paging := do
  let s ← startThread stray stray' s stale table beside beside'
  myPthreadYield stray s

def myPthreadExit (stray : Nat) (s : Paging) (valuePtr : Int) : Option Paging := do
  let s ← s.leave valuePtr
  myPthreadYield stray s

def myPthreadJoin (stray : Nat) (s : Paging) (thread : Nat) : Option Paging := do
  let struct ← s.scheduler.threads thread
  if struct.state ≠ .completed then myPthreadYield stray s
  else s.releaseThread thread

def takeFrame (stray : Nat) (s : Paging) (currentTable offset cell : Nat) : Paging :=
  let (newAddr, s) := swapOut stray s offset
  let s := s.mark offset false
  let s := (s.setCell cell newAddr).mark newAddr true
  (s.setCell (currentTable + offset) offset).mark offset true

def scanTables (stray currentTable offset : Nat) (s : Paging) (i : Nat) :
    Nat → Option Paging
  | 0 => none
  | n + 1 => do
      let table ← s.pageTables i
      match ← scanEntries offset table s 0 memoryPages with
      | .found j =>
          some ((takeFrame stray s currentTable offset (table + j)).protect offset true)
      | .ended =>
          let s :=
            if s.cells (table + (memoryPages - 1)) = offset then
              takeFrame stray s currentTable offset (table + (memoryPages - 1))
            else s
          scanTables stray currentTable offset s (i + 1) n

def segHandler (stray : Nat) (s : Paging) (offset : Nat) : Option Paging := do
  let current ← s.scheduler.current
  let currentTable ← s.pageTables current
  if s.masterTable offset = false then
    some (((s.protect offset true).setCell (currentTable + offset) offset).mark
      offset true)
  else scanTables stray currentTable offset s 0 maxThreads

def touchPage (stray : Nat) (s : Paging) (page : Nat) : Option Paging :=
  if s.accessible page then some s else segHandler stray s page

def touch (stray : Nat) (s : Paging) (address : Int) : Option Paging :=
  if 0 ≤ address ∧ address < usrSize + pageSize then
    touchPage stray s (address / pageSize).toNat
  else none

def mapPage (stray : Nat) (s : Paging) (currentTable i : Nat) : Option Paging :=
  if i < memoryPages then
    if s.masterTable i = true ∧ s.cells (currentTable + i) = i then some s
    else do
      let s ← if s.masterTable i = true then evict stray i s else some s
      some (((s.setCell (currentTable + i) i).mark i true).protect i true)
  else none

def step (stray stray' : Nat) (s : Paging) : Event → Option Paging
  | .create stale table beside beside' =>
      myPthreadCreate stray stray' s stale table beside beside'
  | .yield => myPthreadYield stray s
  | .exit valuePtr => myPthreadExit stray s valuePtr
  | .join thread => myPthreadJoin stray s thread
  | .load address => touch stray s address
  | .store address byte => do
      let s ← touch stray s address
      some { s with memory := Function.update s.memory address byte }
  | .setValue p size allocation => do
      let s ← touch stray s p
      let s ← touch stray s (p + 3)
      some { s with memory := s.memory.store p (tagWord size allocation) }
  | .mapPage i => do
      let current ← s.scheduler.current
      let currentTable ← s.pageTables current
      mapPage stray s currentTable i
  | .reuse cell value => some (s.setCell cell value)

variable {stray stray' : Nat} {s next : Paging}

end RutgersOS.Assignment2.Paging.Exhausted
