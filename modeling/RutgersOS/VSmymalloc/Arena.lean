import Mathlib.Algebra.Group.Int.Defs
import RutgersOS.Memory.BoundaryTag

namespace RutgersOS.VSmymalloc

open RutgersOS.Memory

/-! `VSmymalloc/mymalloc.c`: a static arena with boundary tags.  A `char *` is
its offset from `myBlock`, a pointer that may be NULL an `Option`. -/

def hdrSize : Int := 4

def memSize : Int := 5000

/-- `size | allocation` in one word; `& ~1` and `& 1` take it apart. -/
def tagCodec : TagCodec where
  encode size allocation := BitVec.ofInt 32 size ||| BitVec.ofInt 32 allocation
  size word := (word &&& ~~~ 1#32).toInt
  flag word := (word &&& 1#32).toInt
  limit := 2 ^ 31
  size_encode := by
    intro n f hlow hhigh hdvd hflag
    obtain ⟨n, rfl⟩ := Int.eq_ofNat_of_zero_le hlow
    rw [BitVec.ofInt_natCast, size_bits (by omega) hflag,
      BitVec.toInt_eq_toNat_of_lt] <;>
      simp only [BitVec.toNat_ofNat] <;> omega
  flag_encode := by
    intro n f hlow hhigh hdvd hflag
    obtain ⟨n, rfl⟩ := Int.eq_ofNat_of_zero_le hlow
    rw [BitVec.ofInt_natCast, flag_bits (by omega) hflag]
    rcases hflag with rfl | rfl <;> rfl

structure Arena where
  myBlock : Bytes
  isInitialized : Bool

def getHeader (p : Int) : Int := BoundaryTag.header p

def getSize (myBlock : Bytes) (ptr : Int) : Int :=
  BoundaryTag.blockSize tagCodec myBlock ptr

def getAllocation (myBlock : Bytes) (ptr : Int) : Int :=
  BoundaryTag.blockFlag tagCodec myBlock ptr

def getFooter (myBlock : Bytes) (p : Int) : Int :=
  BoundaryTag.footer tagCodec myBlock p

def setValue (myBlock : Bytes) (p size allocation : Int) : Bytes :=
  BoundaryTag.setTag tagCodec myBlock p size allocation

def getPrevious (myBlock : Bytes) (ptr : Int) : Option Int :=
  BoundaryTag.previous tagCodec myBlock ptr

def getNext (myBlock : Bytes) (ptr : Int) : Option Int :=
  BoundaryTag.next tagCodec myBlock ptr

def coalesce (myBlock : Bytes) (ptr : Int) : Bytes :=
  BoundaryTag.coalesce tagCodec myBlock ptr

/-- `initialize`: prologue and epilogue words around one free block. -/
def initializeHeap (myBlock : Bytes) : Bytes :=
  let epilogue := memSize - hdrSize
  let memorySize := memSize - 2 * hdrSize
  let myBlock := setValue myBlock 0 0 1
  let myBlock := setValue myBlock epilogue 0 1
  let myBlock := setValue myBlock hdrSize memorySize 0
  setValue myBlock (epilogue - hdrSize) memorySize 0

/-- The walk starts past the prologue and the first header.  `MEMSIZE` rounds
are more than the arena has blocks. -/
def findFit (myBlock : Bytes) (extendedSize : Int) : Option (Option Int) :=
  BoundaryTag.firstFit tagCodec myBlock extendedSize memSize.toNat (2 * hdrSize)

/-- The returned pointer is `none` for NULL; the outer `none` stands for a walk
that does not end. -/
def mymalloc (arena : Arena) (size : Nat) : Option (Arena × Option Int) :=
  let myBlock :=
    if arena.isInitialized then arena.myBlock else initializeHeap arena.myBlock
  if size = 0 then some (⟨myBlock, true⟩, none)
  else if memSize < size then some (⟨myBlock, true⟩, none)
  else
    let adjustedSize := (4 - size % 4) % 4
    let extendedSize := size + adjustedSize + 2 * 4
    match findFit myBlock extendedSize with
    | none => none
    | some none => some (⟨myBlock, true⟩, none)
    | some (some ptr) =>
        let oldSize := getSize myBlock ptr
        let difference := oldSize - extendedSize
        if extendedSize < oldSize ∧ 2 * hdrSize < difference then
          some (⟨BoundaryTag.split tagCodec myBlock ptr extendedSize difference,
            true⟩, some ptr)
        else
          some (⟨BoundaryTag.occupy tagCodec myBlock ptr oldSize, true⟩, some ptr)

/-- The first comparison is unsigned: `sizeof` makes it one of `size_t`. -/
def myfree (myBlock : Bytes) : Option Int → Bytes
  | none => myBlock
  | some ptr =>
      if memSize - 2 * hdrSize < ptr % 2 ^ 64 ∨ ptr < hdrSize then myBlock
      else BoundaryTag.release tagCodec myBlock ptr

structure Client where
  arena : Arena
  live : List (Int × Nat)

inductive Op where
  | malloc (size : Nat)
  | free (ptr : Option Int)
  | write (ptr : Int) (offset : Nat) (byte : UInt8)

namespace Client

def Live (client : Client) (ptr : Int) : Prop :=
  ptr ∈ client.live.map Prod.fst

def Allowed (client : Client) : Op → Prop
  | .malloc _ => True
  | .free none => True
  | .free (some ptr) => client.Live ptr
  | .write ptr offset _ => ∃ size, (ptr, size) ∈ client.live ∧ offset < size

def writeByte (arena : Arena) (address : Int) (byte : UInt8) : Arena :=
  { arena with
    myBlock := fun x => if x = address then byte else arena.myBlock x }

def step (client : Client) : Op → Option Client
  | .malloc size =>
      (mymalloc client.arena size).map fun result =>
        { arena := result.1
          live := match result.2 with
            | none => client.live
            | some ptr => (ptr, size) :: client.live }
  | .free ptr =>
      some
        { arena :=
            { client.arena with myBlock := myfree client.arena.myBlock ptr }
          live := client.live.filter fun entry => some entry.1 ≠ ptr }
  | .write ptr offset byte =>
      some { client with arena := writeByte client.arena (ptr + offset) byte }

/-- The clients that some run of allowed operations produces, from an arena
with any content. -/
inductive Reachable : Client → Prop
  | uninitialised (myBlock : Bytes) : Reachable ⟨⟨myBlock, false⟩, []⟩
  | step {client next : Client} (op : Op) :
      Reachable client → client.Allowed op → client.step op = some next →
        Reachable next

end Client

end RutgersOS.VSmymalloc
