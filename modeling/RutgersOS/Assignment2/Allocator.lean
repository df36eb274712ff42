import Mathlib.Algebra.Group.Int.Defs
import Mathlib.Algebra.Group.Nat.Defs
import RutgersOS.Memory.Allocations
import RutgersOS.Memory.Bounded

namespace RutgersOS.Assignment2

open RutgersOS.Memory

namespace Allocator

/-! `mymalloc.c` while the main thread is the only one.  Its pages are then where it
touches them, so that `seg_handler` and the loop over the pages of a new block set
protections and table entries and move no byte.  A pointer is its offset from
`memory`, and `none` is an access to a word outside `memory[0, 2^23 + 4)`. -/

def osSize : Int := 2097152

def usrSize : Int := 6291456

def hdrSize : Int := 4

def pageSize : Int := 4096

def bounds : BoundaryTag.Bounds where
  low := 0
  high := osSize + usrSize + 4

theorem shiftLeft_one (n : Nat) :
    BitVec.ofNat 32 n <<< 1 = BitVec.ofNat 32 (2 * n) := by
  apply BitVec.eq_of_toNat_eq
  rw [BitVec.toNat_shiftLeft, BitVec.toNat_ofNat, BitVec.toNat_ofNat,
    Nat.shiftLeft_eq]
  omega

theorem toInt_sshiftRight_one {n : Nat} (h : n < 2 ^ 30) :
    ((BitVec.ofNat 32 (2 * n)).sshiftRight 1).toInt = n := by
  have hdouble : (BitVec.ofNat 32 (2 * n)).toInt = ((2 * n : Nat) : Int) := by
    rw [BitVec.toInt_eq_toNat_of_lt] <;> simp only [BitVec.toNat_ofNat] <;> omega
  rw [BitVec.toInt_sshiftRight, hdouble, Int.shiftRight_eq_div_pow]
  omega

/-- `size << 1 | allocation` in one word. -/
def tagCodec : TagCodec where
  encode size allocation :=
    (BitVec.ofInt 32 size <<< 1) ||| BitVec.ofInt 32 allocation
  size word := ((word &&& ~~~ 1#32).sshiftRight 1).toInt
  flag word := (word &&& 1#32).toInt
  limit := 2 ^ 30
  size_encode := by
    intro n f hlow hhigh hdvd hflag
    obtain ⟨n, rfl⟩ := Int.eq_ofNat_of_zero_le hlow
    rw [BitVec.ofInt_natCast, shiftLeft_one,
      size_bits (Nat.dvd_mul_right 2 n) hflag, toInt_sshiftRight_one (by omega)]
  flag_encode := by
    intro n f hlow hhigh hdvd hflag
    obtain ⟨n, rfl⟩ := Int.eq_ofNat_of_zero_le hlow
    rw [BitVec.ofInt_natCast, shiftLeft_one, flag_bits (Nat.dvd_mul_right 2 n) hflag]
    rcases hflag with rfl | rfl <;> rfl

def getHeader (p : Int) : Int := BoundaryTag.header p

def getSize (memory : Bytes) (ptr : Int) : Option Int :=
  BoundaryTag.Bounded.blockSize tagCodec bounds memory ptr

def getAllocation (memory : Bytes) (ptr : Int) : Option Int :=
  BoundaryTag.Bounded.blockFlag tagCodec bounds memory ptr

def getFooter (memory : Bytes) (p : Int) : Option Int :=
  BoundaryTag.Bounded.footer tagCodec bounds memory p

def setValue (memory : Bytes) (p size allocation : Int) : Option Bytes :=
  BoundaryTag.Bounded.setTag tagCodec bounds memory p size allocation

def getPrevious (memory : Bytes) (ptr : Int) : Option (Option Int) :=
  BoundaryTag.Bounded.previous tagCodec bounds memory ptr

def getNext (memory : Bytes) (ptr : Int) : Option (Option Int) :=
  BoundaryTag.Bounded.next tagCodec bounds memory ptr

def coalesce (memory : Bytes) (ptr : Int) : Option Bytes :=
  BoundaryTag.Bounded.coalesce tagCodec bounds memory ptr

/-- `initializeMemory` on the `2^23 + pageSize` bytes of `posix_memalign`, which
hold `garbage`; there is nothing at the other addresses. -/
def initializeMemory (garbage : Bytes) : Bytes :=
  let memory : Bytes := fun x =>
    if 0 ≤ x ∧ x < osSize + usrSize + pageSize then garbage x else 0
  let adjustedSize := osSize - 4
  let memory := BoundaryTag.setTag tagCodec memory 0 adjustedSize 0
  let memory := memory.store (osSize - hdrSize) 1
  let memory :=
    BoundaryTag.setTag tagCodec memory (osSize - hdrSize - hdrSize) adjustedSize 0
  let memory := BoundaryTag.setTag tagCodec memory osSize usrSize 0
  let memory := memory.store (osSize + usrSize) 1
  BoundaryTag.setTag tagCodec memory (osSize + usrSize - hdrSize) usrSize 0

def whichMemory (id : Int) : Int :=
  if id = 999 then osSize else 0

/-- The walk starts past the first header.  `2^23` rounds are more than a region has
blocks. -/
def findFit (memory : Bytes) (whichMemory extendedSize : Int) :
    Option (Option Int) :=
  BoundaryTag.Bounded.firstFit tagCodec bounds memory extendedSize 8388608
    (whichMemory + hdrSize)

def extendedSize (size : Nat) : Nat :=
  size + (4 - size % 4) % 4 + 2 * 4

/-- The block that `findFit` found is cut, handed out whole or not used. -/
def placeBlock (memory : Bytes) (ptr extendedSize : Int) :
    Option (Bytes × Option Int) := do
  let oldSize ← getSize memory ptr
  let difference := oldSize - extendedSize
  if extendedSize < oldSize ∧ 2 * hdrSize < difference then do
    let memory ←
      BoundaryTag.Bounded.split tagCodec bounds memory ptr extendedSize difference
    let _footerAddress ← getFooter memory ptr
    some (memory, some ptr)
  else if extendedSize < oldSize ∧ 0 ≤ difference ∧ difference ≤ 2 * hdrSize then do
    let memory ← BoundaryTag.Bounded.occupy tagCodec bounds memory ptr oldSize
    let _footerAddress ← getFooter memory ptr
    some (memory, some ptr)
  else some (memory, none)

/-- The inner `none` is NULL. -/
def myallocate (memory : Bytes) (size : Nat) (id : Int) :
    Option (Bytes × Option Int) :=
  if size = 0 then some (memory, none)
  else if usrSize < size then some (memory, none)
  else do
    match ← findFit memory (whichMemory id) (extendedSize size) with
    | none => some (memory, none)
    | some ptr => placeBlock memory ptr (extendedSize size)

/-- A difference of two pointers as an `int`. -/
def asInt (difference : Int) : Int :=
  (BitVec.ofInt 32 difference).toInt

/-- `mydeallocate` where the words of `bounds` may be touched.  A block that is free
already is only reported. -/
def mydeallocateWithin (bounds : BoundaryTag.Bounds) (memory : Bytes)
    (ptr : Option Int) (id : Int) : Option Bytes :=
  match ptr with
  | none => some memory
  | some ptr =>
      let relativeAddress := asInt (ptr - whichMemory id)
      if osSize + usrSize - 2 * hdrSize < relativeAddress ∨
          relativeAddress < hdrSize then some memory
      else do
        let _allocation ← BoundaryTag.Bounded.blockFlag tagCodec bounds memory ptr
        BoundaryTag.Bounded.release tagCodec bounds memory ptr

def mydeallocate : Bytes → Option Int → Int → Option Bytes :=
  mydeallocateWithin bounds

theorem asInt_eq {difference : Int} (hlow : -2 ^ 31 ≤ difference)
    (hhigh : difference < 2 ^ 31) : asInt difference = difference := by
  rw [asInt, BitVec.toInt_ofInt]
  exact Int.bmod_eq_of_le (by omega) (by omega)

structure Client where
  memory : Bytes
  live : List (Int × Int × Nat)

inductive Op where
  | allocate (size : Nat) (id : Int)
  | deallocate (ptr : Option Int) (id : Int)
  | write (ptr : Int) (offset : Nat) (byte : UInt8)

namespace Client

def Allowed (client : Client) : Op → Prop
  | .allocate _ _ => True
  | .deallocate none _ => True
  | .deallocate (some ptr) id => ∃ size, (id, ptr, size) ∈ client.live
  | .write ptr offset _ => ∃ id size, (id, ptr, size) ∈ client.live ∧ offset < size

def step (client : Client) : Op → Option Client
  | .allocate size id =>
      (myallocate client.memory size id).map fun result =>
        { memory := result.1
          live := match result.2 with
            | none => client.live
            | some ptr => (id, ptr, size) :: client.live }
  | .deallocate ptr id =>
      (mydeallocate client.memory ptr id).map fun memory =>
        { memory
          live := client.live.filter fun entry => some entry.2.1 ≠ ptr }
  | .write ptr offset byte =>
      some
        { client with
          memory := fun x => if x = ptr + offset then byte else client.memory x }

inductive Reachable : Client → Prop
  | start (garbage : Bytes) : Reachable ⟨initializeMemory garbage, []⟩
  | step {client next : Client} (op : Op) :
      Reachable client → client.Allowed op → client.step op = some next →
        Reachable next

end Client

end Allocator

end RutgersOS.Assignment2
