import RutgersOS.Assignment2.Regions

namespace RutgersOS.Assignment2.Allocator

open RutgersOS.Memory
open RutgersOS.Memory.BoundaryTag (header Bounded.release Bounded.coalesce
  Bounded.blockSize_eq Bounded.blockFlag_eq Bounded.setTag_eq Bounded.footer_eq
  Bounded.previous_eq Bounded.next_eq)

/-! `mydeallocate` with pointers outside the region that its last argument selects.
One bound, made for both regions together, is checked against either base. -/

/-- Both regions, their epilogue words and the page beyond. -/
def wholeAllocation : BoundaryTag.Bounds where
  low := 0
  high := osSize + usrSize + pageSize

def Outside (id : Int) : Option Int → Prop
  | none => True
  | some ptr =>
      let size := if id = 999 then usrSize else osSize
      ptr ≤ whichMemory id ∨ whichMemory id + size ≤ ptr

/-- The call touches nothing beyond what was allocated and changes no byte of it. -/
def Refused (memory : Bytes) (ptr : Option Int) (id : Int) : Prop :=
  ∃ next, mydeallocateWithin wholeAllocation memory ptr id = some next ∧
    ∀ x, wholeAllocation.low ≤ x → x < wholeAllocation.high → next x = memory x

def Rejected (id : Int) : Option Int → Prop
  | none => True
  | some ptr => osSize + usrSize - 2 * hdrSize < asInt (ptr - whichMemory id) ∨
      asInt (ptr - whichMemory id) < hdrSize

theorem refused_of_rejected {id : Int} {ptr : Option Int} (h : Rejected id ptr)
    (memory : Bytes) : Refused memory ptr id := by
  refine ⟨memory, ?_, fun _ _ _ => rfl⟩
  cases ptr with
  | none => rfl
  | some ptr => exact if_pos h

/-- Past the check the block, whatever it is, is released. -/
theorem mydeallocate_accepted {id ptr : Int} (h : ¬ Rejected id (some ptr))
    (memory : Bytes) :
    mydeallocateWithin wholeAllocation memory (some ptr) id =
      (BoundaryTag.Bounded.blockFlag tagCodec wholeAllocation memory ptr).bind fun _ =>
        Bounded.release tagCodec wholeAllocation memory ptr :=
  if_neg h

theorem accepted_header_inside {id ptr : Int} (h : ¬ Rejected id (some ptr))
    {memory : Bytes} (hrefused : Refused memory (some ptr) id) :
    wholeAllocation.Inside (header ptr) := by
  obtain ⟨next, hnext, -⟩ := hrefused
  rw [mydeallocate_accepted h] at hnext
  obtain ⟨flag, hflag, -⟩ := Option.bind_eq_some_iff.mp hnext
  obtain ⟨word, hword, -⟩ := Option.map_eq_some_iff.mp hflag
  by_contra houtside
  rw [BoundaryTag.Bounded.readWord, if_neg houtside] at hword
  cases hword

/-- The header of such a block before `ptr`, and an epilogue word at `ptr`. -/
def decoy (ptr x : Int) : UInt8 :=
  if x = ptr - 4 then 9 else if x = ptr then 1 else 0

theorem decoy_shift (ptr x : Int) : decoy ptr (ptr + x) = decoy 0 x := by
  have hheader : ptr + x = ptr - 4 ↔ x = 0 - 4 := by omega
  have hnext : ptr + x = ptr ↔ x = 0 := by omega
  simp only [decoy, hheader, hnext]

theorem decoy_load {memory : Bytes} {ptr address : Int}
    (h : ∀ x, address ≤ x → x < address + 4 → memory x = decoy ptr x) :
    memory.load address = Bytes.load (decoy 0) (address - ptr) := by
  have hbyte : ∀ x, address ≤ x → x < address + 4 → memory x = decoy 0 (x - ptr) := by
    intro x hlow hhigh
    rw [h x hlow hhigh, ← decoy_shift ptr (x - ptr)]
    congr 1
    omega
  have hshift : memory.load address = Bytes.load (fun x => decoy 0 (x - ptr)) address :=
    Bytes.load_congr hbyte
  have hcomm : ∀ k, address + k - ptr = address - ptr + k := fun k => by omega
  rw [hshift]
  simp only [Bytes.load, hcomm]

/-- A block of four bytes is its own footer, and its neighbours end the heap. -/
theorem coalesce_decoy {memory : Bytes} {ptr : Int} (hlow : 8 ≤ ptr)
    (hhigh : ptr + 4 ≤ wholeAllocation.high) (hprevious : memory.load (ptr - 8) = 0#32)
    (hheader : memory.load (ptr - 4) = 8#32) (hnext : memory.load ptr = 1#32) :
    Bounded.coalesce tagCodec wholeAllocation memory ptr = some memory := by
  have hinside : ∀ address, ptr - 8 ≤ address → address ≤ ptr →
      wholeAllocation.Inside address :=
    fun address hfirst hlast => ⟨by change 0 ≤ address; omega, by omega⟩
  have hsize : BoundaryTag.blockSize tagCodec memory ptr = 4 := by
    rw [BoundaryTag.blockSize, header, hheader]
    decide
  have hfollowing : header (ptr + 4) = ptr := by
    rw [header]
    omega
  have hnone : BoundaryTag.previous tagCodec memory ptr = none := by
    rw [BoundaryTag.previous, hprevious]
    exact if_pos (by decide)
  have hend : BoundaryTag.next tagCodec memory ptr = none := by
    have hlast : BoundaryTag.blockSize tagCodec memory (ptr + 4) = 0 ∧
        BoundaryTag.blockFlag tagCodec memory (ptr + 4) = 1 := by
      rw [BoundaryTag.blockSize, BoundaryTag.blockFlag, hfollowing, hnext]
      decide
    rw [BoundaryTag.next, hsize]
    exact if_pos hlast
  have hown : wholeAllocation.Inside (header ptr) :=
    hinside (ptr - 4) (by omega) (by omega)
  have hnextTag : wholeAllocation.Inside
      (header (ptr + BoundaryTag.blockSize tagCodec memory ptr)) := by
    rw [hsize, hfollowing]
    exact hinside ptr (by omega) (Int.le_refl ptr)
  rw [Bounded.coalesce, Bounded.previous_eq (hinside _ (by omega) (by omega)), hnone,
    Bounded.next_eq hown hnextTag, hend]
  rfl

theorem decoy_released {memory : Bytes} {ptr : Int} (hlow : 8 ≤ ptr)
    (hhigh : ptr + 4 ≤ wholeAllocation.high)
    (h : ∀ x, ptr - 8 ≤ x → x < ptr + 4 → memory x = decoy ptr x) :
    memory.load (ptr - 4) = 9#32 ∧
      Bounded.release tagCodec wholeAllocation memory ptr =
        some (memory.store (ptr - 4) 8#32) := by
  have hload : ∀ k : Int, -8 ≤ k → k ≤ 0 →
      memory.load (ptr + k) = Bytes.load (decoy 0) k := by
    intro k hfirst hlast
    rw [decoy_load fun x hx hx' => h x (by omega) (by omega)]
    congr 1
    omega
  have hheader : memory.load (ptr - 4) = 9#32 := hload (-4) (by decide) (by decide)
  have hprevious : memory.load (ptr - 8) = 0#32 := hload (-8) (by decide) (by decide)
  have hnext : memory.load ptr = 1#32 := by
    have hzero := hload 0 (by decide) (by decide)
    rw [Int.add_zero] at hzero
    exact hzero
  refine ⟨hheader, ?_⟩
  have hinside : wholeAllocation.Inside (ptr - 4) :=
    ⟨by change 0 ≤ ptr - 4; omega, by omega⟩
  have hsize : BoundaryTag.blockSize tagCodec memory ptr = 4 := by
    rw [BoundaryTag.blockSize, header, hheader]
    decide
  have htag : ∀ memory, BoundaryTag.setTag tagCodec memory (ptr - 4) 4 0 =
      memory.store (ptr - 4) 8#32 := fun _ => rfl
  generalize hnew : memory.store (ptr - 4) 8#32 = new
  have hloaded : new.load (ptr - 4) = 8#32 := by
    rw [← hnew, Bytes.load_store_same]
  have hsize' : BoundaryTag.blockSize tagCodec new ptr = 4 := by
    rw [BoundaryTag.blockSize, header, hloaded]
    decide
  have hfooter : BoundaryTag.footer tagCodec new ptr = ptr - 4 := by
    rw [BoundaryTag.footer, hsize']
    omega
  -- the second tag is the first one again
  have hagain : BoundaryTag.setTag tagCodec new (ptr - 4) 4 0 = new := by
    rw [htag, ← hloaded]
    exact Bytes.store_load_same new (ptr - 4)
  have hcoalesce : Bounded.coalesce tagCodec wholeAllocation new ptr = some new := by
    refine coalesce_decoy hlow hhigh ?_ hloaded ?_
    · rw [← hnew, Bytes.load_store_disjoint _ _ (by omega), hprevious]
    · rw [← hnew, Bytes.load_store_disjoint _ _ (by omega), hnext]
  have hsizeIs : BoundaryTag.Bounded.blockSize tagCodec wholeAllocation memory ptr =
      some 4 := by
    rw [Bounded.blockSize_eq hinside, hsize]
  have hfooterIs : BoundaryTag.Bounded.footer tagCodec wholeAllocation new ptr =
      some (ptr - 4) := by
    rw [Bounded.footer_eq hinside, hfooter]
  simp only [Bounded.release, hsizeIs, header, Bounded.setTag_eq hinside,
    Option.bind_eq_bind, Option.bind_some]
  rw [htag, hnew, hfooterIs, Option.bind_some, Bounded.setTag_eq hinside, hagain,
    Option.bind_some, hcoalesce]

theorem initializeMemory_byte (garbage : Bytes) {x : Int} (hlow : 4 ≤ x)
    (hhigh : x < wholeAllocation.high) (hos : x < 2097144 ∨ 2097156 ≤ x)
    (huser : x < 8388604 ∨ 8388612 ≤ x) : initializeMemory garbage x = garbage x := by
  simp only [wholeAllocation, osSize, usrSize, pageSize] at hhigh
  simp only [initializeMemory, BoundaryTag.setTag, osSize, usrSize, hdrSize, pageSize]
  rw [Bytes.store_outside _ _ (by omega), Bytes.store_outside _ _ (by omega),
    Bytes.store_outside _ _ (by omega), Bytes.store_outside _ _ (by omega),
    Bytes.store_outside _ _ (by omega), Bytes.store_outside _ _ (by omega)]
  exact if_pos ⟨by omega, by omega⟩

theorem accepts_decoy {id ptr : Int} (haccepted : ¬ Rejected id (some ptr))
    (hlow : 2097164 ≤ ptr) (hhigh : ptr + 4 ≤ wholeAllocation.high)
    (huser : ptr ≤ 8388600 ∨ 8388620 ≤ ptr) :
    ¬ Refused (initializeMemory (decoy ptr)) (some ptr) id := by
  have hbytes : ∀ x, ptr - 8 ≤ x → x < ptr + 4 →
      initializeMemory (decoy ptr) x = decoy ptr x := fun x hx hx' =>
    initializeMemory_byte _ (by omega) (by omega) (by omega) (by omega)
  obtain ⟨hheader, hrelease⟩ := decoy_released (by omega) hhigh hbytes
  rintro ⟨next, hnext, hsame⟩
  rw [mydeallocate_accepted haccepted] at hnext
  obtain ⟨-, -, hnext⟩ := Option.bind_eq_some_iff.mp hnext
  obtain rfl := Option.some.inj (hrelease.symm.trans hnext)
  have hword : ((initializeMemory (decoy ptr)).store (ptr - 4) 8#32).load (ptr - 4) =
      (initializeMemory (decoy ptr)).load (ptr - 4) :=
    Bytes.load_congr fun x hx hx' => hsame x (by change 0 ≤ x; omega) (by omega)
  rw [Bytes.load_store_same, hheader] at hword
  cases hword

/-- The call leaves the allocation, or it changes this byte. -/
def Harms (memory : Bytes) (ptr id x : Int) : Bool :=
  (mydeallocateWithin wholeAllocation memory (some ptr) id).elim true
    fun next => next x ≠ memory x

theorem Harms.not_refused {memory : Bytes} {ptr id x : Int} (h : Harms memory ptr id x)
    (hlow : wholeAllocation.low ≤ x) (hhigh : x < wholeAllocation.high) :
    ¬ Refused memory (some ptr) id := by
  rintro ⟨next, hnext, hsame⟩
  rw [Harms, hnext, Option.elim_some, decide_eq_true_iff] at h
  exact h (hsame x hlow hhigh)

theorem mydeallocateWithin_congr {id id' : Int} (h : whichMemory id = whichMemory id')
    (memory : Bytes) (ptr : Option Int) :
    mydeallocateWithin wholeAllocation memory ptr id =
      mydeallocateWithin wholeAllocation memory ptr id' := by
  simp only [mydeallocateWithin, h]

/-- The pointers after either region whose tags are words of `initializeMemory`, and
those with a header but no block behind it. -/
def harmsAtEnds (memory : Bytes) : Bool :=
  ((List.range 12).all fun i =>
    (Harms memory (2097152 + i) 69 2097148 || Harms memory (2097152 + i) 69 2097152) &&
      Harms memory (8388608 + i) 999 8388608) &&
    (List.range 4).all fun i => Harms memory (8392701 + i) 999 8388608

theorem harmed_at_ends : ∃ client : Client, client.Reachable ∧
    harmsAtEnds client.memory = true := by
  have hchecked : ((Client.step ⟨initializeMemory fun _ => 2, []⟩ (.allocate 10 999)).map
      fun client => harmsAtEnds client.memory) = some true := by decide +kernel
  obtain ⟨client, hstep, hharms⟩ := Option.map_eq_some_iff.mp hchecked
  exact ⟨client, .step (.allocate 10 999) (.start _) trivial hstep, hharms⟩

section Ends

variable {memory : Bytes} (h : harmsAtEnds memory = true)

include h

theorem harmsAtEnds.after_os {id ptr : Int} (hid : id ≠ 999) (hlow : 2097152 ≤ ptr)
    (hhigh : ptr < 2097164) : ¬ Refused memory (some ptr) id := by
  obtain ⟨i, rfl⟩ : ∃ i : Nat, ptr = 2097152 + i := ⟨(ptr - 2097152).toNat, by omega⟩
  have hsame : whichMemory id = whichMemory 69 := if_neg hid
  rw [harmsAtEnds, Bool.and_eq_true, List.all_eq_true] at h
  have hboth := h.1 i (List.mem_range.mpr (by omega))
  rw [Bool.and_eq_true, Bool.or_eq_true] at hboth
  rw [Refused, mydeallocateWithin_congr hsame]
  rcases hboth.1 with hepilogue | hheader
  · exact Harms.not_refused hepilogue (by decide) (by decide)
  · exact Harms.not_refused hheader (by decide) (by decide)

theorem harmsAtEnds.after_user {ptr : Int} (hlow : 8388608 ≤ ptr)
    (hhigh : ptr < 8388620) : ¬ Refused memory (some ptr) 999 := by
  obtain ⟨i, rfl⟩ : ∃ i : Nat, ptr = 8388608 + i := ⟨(ptr - 8388608).toNat, by omega⟩
  rw [harmsAtEnds, Bool.and_eq_true, List.all_eq_true] at h
  have hboth := h.1 i (List.mem_range.mpr (by omega))
  rw [Bool.and_eq_true] at hboth
  exact Harms.not_refused hboth.2 (by decide) (by decide)

theorem harmsAtEnds.at_end {ptr : Int} (hlow : 8392701 ≤ ptr) (hhigh : ptr < 8392705) :
    ¬ Refused memory (some ptr) 999 := by
  obtain ⟨i, rfl⟩ : ∃ i : Nat, ptr = 8392701 + i := ⟨(ptr - 8392701).toNat, by omega⟩
  rw [harmsAtEnds, Bool.and_eq_true, List.all_eq_true, List.all_eq_true] at h
  exact Harms.not_refused (h.2 i (List.mem_range.mpr (by omega))) (by decide) (by decide)

end Ends

/-- A pointer outside its region is refused in every reachable heap exactly if the one
bound on its distance rejects it.  Any other one has a heap where a byte changes or a
word outside of what was allocated is touched. -/
theorem mydeallocate_refuses_iff (id : Int) {ptr : Option Int} (houtside : Outside id ptr) :
    (∀ client : Client, client.Reachable → Refused client.memory ptr id) ↔
      Rejected id ptr := by
  constructor
  · intro h
    cases ptr with
    | none => trivial
    | some ptr =>
        by_contra haccepted
        obtain ⟨hlow, hhigh⟩ := accepted_header_inside haccepted (h _ (.start fun _ => 0))
        obtain ⟨client, hreachable, hends⟩ := harmed_at_ends
        have hdecoy := h _ (.start (decoy ptr))
        have hends' := h client hreachable
        simp only [wholeAllocation, header, osSize, usrSize, pageSize] at hlow hhigh
        rcases Classical.em (id = 999) with rfl | hid
        · have hbase : whichMemory 999 = 2097152 := rfl
          have hrange := haccepted
          rw [Rejected, hbase, asInt_eq (by omega) (by omega)] at hrange
          simp only [Outside, hbase, osSize, usrSize, hdrSize] at houtside hrange
          rw [if_pos trivial] at houtside
          rcases Int.lt_or_le ptr 8388620 with hfirst | hfirst
          · exact harmsAtEnds.after_user hends (by omega) hfirst hends'
          · rcases Int.lt_or_le ptr 8392701 with hroom | hlast
            · refine accepts_decoy haccepted (by omega) ?_ (by omega) hdecoy
              simp only [wholeAllocation, osSize, usrSize, pageSize]
              omega
            · exact harmsAtEnds.at_end hends hlast (by omega) hends'
        · have hbase : whichMemory id = 0 := if_neg hid
          have hrange := haccepted
          rw [Rejected, hbase, asInt_eq (by omega) (by omega)] at hrange
          simp only [Outside, hbase, osSize, usrSize, hdrSize] at houtside hrange
          rw [if_neg hid] at houtside
          rcases Int.lt_or_le ptr 2097164 with hfirst | hfirst
          · exact harmsAtEnds.after_os hends hid (by omega) hfirst hends'
          · refine accepts_decoy haccepted hfirst ?_ (by omega) hdecoy
            simp only [wholeAllocation, osSize, usrSize, pageSize]
            omega
  · exact fun h client _ => refused_of_rejected h client.memory

/-- The epilogue word of the user region, as a pointer of the OS. -/
theorem mydeallocate_refuses_iff_epilogue :
    Refused (initializeMemory fun _ => 0) (some 8388608) 69 := by
  have houtside : Outside 69 (some 8388608) := Or.inr (by decide)
  have hrejected : Rejected 69 (some 8388608) := Or.inl (by decide)
  exact (mydeallocate_refuses_iff 69 houtside).mpr hrejected _ (.start fun _ => 0)

theorem live_user_freed {client : Client} (h : client.Reachable) {ptr : Int} {size : Nat}
    (hlive : (999, ptr, size) ∈ client.live) {id : Int} (hid : id ≠ 999) :
    Outside id (some ptr) ∧ ¬ Refused client.memory (some ptr) id := by
  obtain ⟨blocks, hheaps⟩ := h.heaps
  have hallocations := hheaps.allocations .user
  have hextent := hheaps.extent .user
  obtain ⟨left, block, right, hblocks, halloc, rfl⟩ :=
    hallocations.live_block (p := ptr) ⟨999, rfl, hlive⟩
  rw [hblocks] at hallocations hextent
  have hminimal := block.minimal
  have hroom : total left + 12 ≤ 6291456 := by
    have htotal := hextent
    rw [total_append, total_cons, Area.extent] at htotal
    omega
  have hbase : whichMemory id = 0 := if_neg hid
  simp only [Area.base, osSize] at hallocations ⊢
  have haccepted : ¬ Rejected id (some (2097152 + (total left : Int) + 4)) := by
    rw [Rejected, hbase, asInt_eq (by omega) (by omega)]
    simp only [osSize, usrSize, hdrSize]
    omega
  refine ⟨?_, ?_⟩
  · simp only [Outside, hbase, if_neg hid, osSize]
    omega
  · rintro ⟨next, hnext, hsame⟩
    rw [mydeallocate_accepted haccepted] at hnext
    obtain ⟨-, -, hnext⟩ := Option.bind_eq_some_iff.mp hnext
    have hlow : wholeAllocation.low ≤ 2097152 := by decide
    have hhigh : 2097152 + (total (left ++ block :: right) : Int) + 4 ≤
        wholeAllocation.high := by
      rw [hextent]
      decide
    have hrelease := BoundaryTag.Bounded.release_eq hlow hhigh hallocations.region rfl
      fun _ => show wholeAllocation.low ≤ 2097152 - 4 by decide
    obtain rfl := Option.some.inj (hrelease.symm.trans hnext)
    have htotal : total (mergeFree (left ++ block.free :: right)) =
        total (left ++ block :: right) := by simp
    -- on the same bytes the block would be both free and allocated
    have hreleased := hallocations.release.congr (fun _ _ hsome => hsome)
      fun x hlow hhigh => (hsame x (by change 0 ≤ x; omega) ?_).symm
    · have hsameBlocks := hreleased.region.unique hallocations.region
      have hfree := allocatedAt_mergeFree 2097152 (left ++ block.free :: right)
        (2097152 + total left + 4)
      rw [hsameBlocks, allocatedAt_here, allocatedAt_here, if_pos halloc] at hfree
      cases hfree
    · rw [htotal] at hhigh
      omega

/-- `mydeallocate(myallocate(10, 999), 69)` -/
theorem mydeallocate_accepts_user_block : ∃ client : Client, client.Reachable ∧
    Outside 69 (some 2097156) ∧ ¬ Refused client.memory (some 2097156) 69 := by
  obtain ⟨client, -, hreachable, hallowed⟩ :=
    first_allocate (fun _ => 7) 10 999 2097156 (by decide +kernel)
  obtain ⟨size, hlive⟩ := hallowed
  exact ⟨client, hreachable, live_user_freed hreachable hlive (by decide)⟩

end RutgersOS.Assignment2.Allocator
