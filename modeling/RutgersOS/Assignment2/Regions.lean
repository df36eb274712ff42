import RutgersOS.Assignment2.Allocator

namespace RutgersOS.Assignment2.Allocator

open RutgersOS.Memory
open RutgersOS.Memory.BoundaryTag (Region Bounded.blockSize_eq Bounded.footer_eq
  Bounded.setTag_eq Bounded.header_inside Bounded.firstFit_eq Bounded.split_eq
  Bounded.occupy_eq Bounded.release_eq)

/-! The two regions.  The epilogue word of the OS region is what lies before the
first header of the user region; before the OS region lies nothing. -/

inductive Area where
  | os
  | user
  deriving DecidableEq

namespace Area

def base : Area → Int
  | .os => 0
  | .user => osSize

def extent : Area → Nat
  | .os => 2097148
  | .user => 6291456

end Area

def areaOf (id : Int) : Area :=
  if id = 999 then .user else .os

theorem whichMemory_eq (id : Int) : whichMemory id = (areaOf id).base := by
  unfold whichMemory areaOf
  split <;> rfl

structure WellFormed (memory : Bytes) (area : Area) (blocks : List Block) : Prop where
  tiles : Tiles tagCodec memory area.base blocks
  extent : total blocks = area.extent
  epilogue : memory.load (area.base + area.extent) = 1#32
  merged : NoAdjacentFree blocks

def Op.Spares (area : Area) : Op → Prop
  | .allocate _ id => areaOf id ≠ area
  | .deallocate _ id => areaOf id ≠ area
  | .write _ _ _ => False

/-- The call touches no tag outside `memory[0, 2^23 + 4)`, leaves both regions well
formed and changes no byte of the region that it does not work on. -/
def Contained (client : Client) (op : Op) : Prop :=
  ∃ next, client.step op = some next ∧
    (∀ area, ∃ blocks, WellFormed next.memory area blocks) ∧
      ∀ area, op.Spares area → ∀ x, area.base ≤ x → x < area.base + area.extent + 4 →
        next.memory x = client.memory x

def Op.Guarded (op : Op) : Prop :=
  ∀ id, areaOf id = .os → op ≠ .deallocate (some hdrSize) id

def Client.liveIn (client : Client) (area : Area) (ptr : Int) (size : Nat) : Prop :=
  ∃ id, areaOf id = area ∧ (id, ptr, size) ∈ client.live

structure Heaps (client : Client) (blocks : Area → List Block) : Prop where
  allocations : ∀ area, Allocations tagCodec client.memory area.base
    (client.liveIn area) (blocks area)
  extent : ∀ area, total (blocks area) = area.extent

theorem Area.inside (area : Area) :
    bounds.low ≤ area.base ∧ area.base + area.extent + 4 ≤ bounds.high := by
  cases area with
  | os => decide
  | user => decide

theorem Area.apart {area other : Area} (h : other ≠ area) {x : Int}
    (hlow : other.base - 4 ≤ x) (hhigh : x < other.base + other.extent + 4) :
    x < area.base ∨ area.base + area.extent ≤ x := by
  cases area <;> cases other <;>
    simp only [ne_eq, not_true_eq_false, reduceCtorEq, Area.base, Area.extent, osSize]
      at * <;> omega

theorem Heaps.wellFormed {client : Client} {blocks : Area → List Block}
    (h : Heaps client blocks) (area : Area) :
    WellFormed client.memory area (blocks area) where
  tiles := (h.allocations area).region.tiles
  extent := h.extent area
  epilogue := by
    have hafter := (h.allocations area).region.after
    rw [h.extent area] at hafter
    exact hafter
  merged := (h.allocations area).merged

theorem Heaps.update {client next : Client} {blocks : Area → List Block}
    (h : Heaps client blocks) {area : Area} {new : List Block}
    (hnew : Allocations tagCodec next.memory area.base (next.liveIn area) new)
    (htotal : total new = area.extent)
    (hframe : ∀ x, x < area.base ∨ area.base + area.extent ≤ x →
      next.memory x = client.memory x)
    (hlive : ∀ other, other ≠ area → ∀ p size, next.liveIn other p size →
      client.liveIn other p size) :
    Heaps next (Function.update blocks area new) where
  allocations other := by
    rcases Classical.em (other = area) with rfl | hne
    · rw [Function.update_self]
      exact hnew
    · rw [Function.update_of_ne hne]
      refine (h.allocations other).congr (hlive other hne) fun x hlow hhigh => ?_
      rw [h.extent other] at hhigh
      exact hframe x (Area.apart hne hlow hhigh)
  extent other := by
    rcases Classical.em (other = area) with rfl | hne
    · rw [Function.update_self]
      exact htotal
    · rw [Function.update_of_ne hne]
      exact h.extent other

theorem extendedSize_aligned (size : Nat) : 4 ∣ extendedSize size := by
  unfold extendedSize
  omega

theorem extendedSize_minimal {size : Nat} (h : size ≠ 0) :
    12 ≤ extendedSize size := by
  unfold extendedSize
  omega

theorem le_extendedSize (size : Nat) : size + 8 ≤ extendedSize size := by
  unfold extendedSize
  omega

def Full (blocks : List Block) (size : Nat) : Prop :=
  ∀ block ∈ blocks, block.allocated = true ∨ block.size < extendedSize size

/-- `block`, behind `left`, is the lowest free block that is large enough. -/
structure Fits (blocks left : List Block) (block : Block) (right : List Block)
    (size : Nat) : Prop where
  eq : blocks = left ++ [block] ++ right
  free : block.allocated = false
  room : extendedSize size ≤ block.size
  lowest : Full left size

/-- A block of exactly the size needed is not taken. -/
theorem placeBlock_cases {memory : Bytes} {area : Area} {left right : List Block}
    {block : Block} {size : Nat}
    (h : Region tagCodec memory area.base (left ++ block :: right))
    (hhigh : area.base + total (left ++ block :: right) + 4 ≤ bounds.high)
    (hsize : size ≠ 0) (hroom : extendedSize size ≤ block.size) :
    block.size = extendedSize size ∧
        placeBlock memory (area.base + total left + 4) (extendedSize size) =
          some (memory, none) ∨
      extendedSize size < block.size ∧
        ∃ placed, Placement (extendedSize size) block placed ∧
          placeBlock memory (area.base + total left + 4) (extendedSize size) =
            some (paint tagCodec memory area.base (left ++ placed ++ right),
              some (area.base + total left + 4)) := by
  have hlow := area.inside.1
  have hregion : Region tagCodec memory area.base (left ++ [block] ++ right) := by
    simpa using h
  have hminimal := extendedSize_minimal hsize
  have halign := extendedSize_aligned size
  have halign' := block.aligned
  obtain ⟨hheader, -⟩ := Bounded.header_inside hlow hhigh rfl
  have hget : getSize memory (area.base + total left + 4) = some (block.size : Int) := by
    rw [getSize, Bounded.blockSize_eq hheader, (Region.located h).size_eq]
  have hfooter : ∀ memory, getFooter memory (area.base + total left + 4) =
      some (BoundaryTag.footer tagCodec memory (area.base + total left + 4)) :=
    fun memory => Bounded.footer_eq hheader
  simp only [placeBlock, hget, hdrSize, Option.bind_eq_bind, Option.bind_some, hfooter]
  by_cases hcut : extendedSize size + 12 ≤ block.size
  · refine Or.inr ⟨by omega, _, .split hminimal halign hcut, ?_⟩
    rw [if_pos (by omega), Bounded.split_eq hlow hhigh hminimal hcut h rfl,
      Option.bind_some, BoundaryTag.split_eq hminimal halign hcut hregion]
  · by_cases hexact : block.size = extendedSize size
    · refine Or.inl ⟨hexact, ?_⟩
      rw [if_neg (by omega), if_neg (by omega)]
    · refine Or.inr ⟨by omega, _, .whole hroom (by omega), ?_⟩
      rw [if_neg (by omega), if_pos (by omega), Bounded.occupy_eq hlow hhigh h rfl,
        Option.bind_some, BoundaryTag.occupy_eq hregion]

theorem myallocate_cases {memory : Bytes} {blocks : List Block} {id : Int}
    (h : Region tagCodec memory (areaOf id).base blocks)
    (hextent : total blocks = (areaOf id).extent) {size : Nat}
    (hsize : size ≠ 0) (hsmall : ¬ usrSize < size) :
    Full blocks size ∧ myallocate memory size id = some (memory, none) ∨
      ∃ left block right, Fits blocks left block right size ∧
        (block.size = extendedSize size ∧
            myallocate memory size id = some (memory, none) ∨
          extendedSize size < block.size ∧
            ∃ placed, Placement (extendedSize size) block placed ∧
              myallocate memory size id = some (paint tagCodec memory
                (areaOf id).base (left ++ placed ++ right),
                some ((areaOf id).base + total left + 4))) := by
  obtain ⟨hlow, hhigh⟩ := (areaOf id).inside
  rw [← hextent] at hhigh
  have hlength : blocks.length < 8388608 := by
    have hle := length_le_total blocks
    rw [hextent] at hle
    cases harea : areaOf id <;> rw [harea] at hle <;> simp only [Area.extent] at hle <;>
      omega
  have hfind : findFit memory (whichMemory id) (extendedSize size) =
      BoundaryTag.firstFit tagCodec memory (extendedSize size) 8388608
        ((areaOf id).base + total [] + 4) := by
    have hblocks : blocks = [] ++ blocks := rfl
    rw [findFit, whichMemory_eq,
      ← Bounded.firstFit_eq hlow hhigh (extendedSize size) h hblocks hlength]
    congr 1
    simp [hdrSize]
  simp only [myallocate, if_neg hsize, if_neg hsmall, hfind, Option.bind_eq_bind]
  have hwhole : Region tagCodec memory (areaOf id).base ([] ++ blocks) := h
  rcases Region.firstFit_spec (extendedSize size) hwhole hlength with
    ⟨hnone, hall⟩ | ⟨left, block, right, rfl, hfree, hfit, hskip, hsome⟩
  · left
    rw [hnone]
    exact ⟨fun block hblock => (hall block hblock).imp_right Int.ofNat_lt.mp, rfl⟩
  · right
    rw [hsome]
    refine ⟨left, block, right, ⟨by simp, hfree, Int.ofNat_le.mp hfit,
      fun other hother => (hskip other hother).imp_right Int.ofNat_lt.mp⟩, ?_⟩
    exact placeBlock_cases h hhigh hsize (Int.ofNat_le.mp hfit)

theorem Heaps.region {client : Client} {blocks : Area → List Block}
    (h : Heaps client blocks) (area : Area) :
    Region tagCodec client.memory area.base (blocks area) ∧
      area.base + total (blocks area) + 4 ≤ bounds.high := by
  refine ⟨(h.allocations area).region, ?_⟩
  rw [h.extent area]
  exact area.inside.2

structure Keeps (client : Client) (op : Op) (next : Client) : Prop where
  heaps : ∃ blocks, Heaps next blocks
  spares : ∀ area, op.Spares area → ∀ x, area.base ≤ x →
    x < area.base + area.extent + 4 → next.memory x = client.memory x

theorem Heaps.keeps {client next : Client} {blocks : Area → List Block} {op : Op}
    (h : Heaps client blocks) (hmemory : next.memory = client.memory)
    (hlive : ∀ area p size, next.liveIn area p size → client.liveIn area p size) :
    Keeps client op next where
  heaps := by
    refine ⟨blocks, fun area => ?_, h.extent⟩
    exact (h.allocations area).congr (hlive area) fun x _ _ => congrFun hmemory x
  spares _ _ x _ _ := congrFun hmemory x

theorem Heaps.keeps_update {client next : Client} {blocks : Area → List Block}
    {op : Op} (h : Heaps client blocks) (area : Area) (new : List Block)
    (hop : ∀ other, op.Spares other → other ≠ area)
    (hnew : Allocations tagCodec next.memory area.base (next.liveIn area) new)
    (htotal : total new = area.extent)
    (hframe : ∀ x, x < area.base ∨ area.base + area.extent ≤ x →
      next.memory x = client.memory x)
    (hlive : ∀ other, other ≠ area → ∀ p size, next.liveIn other p size →
      client.liveIn other p size) : Keeps client op next where
  heaps := ⟨_, h.update hnew htotal hframe hlive⟩
  spares other hother x hlow hhigh :=
    hframe x (Area.apart (hop other hother) (by omega) hhigh)

theorem Heaps.allocate {client : Client} {blocks : Area → List Block}
    (h : Heaps client blocks) (size : Nat) (id : Int) :
    ∃ next, client.step (.allocate size id) = some next ∧
      Keeps client (.allocate size id) next := by
  have hnull : myallocate client.memory size id = some (client.memory, none) →
      ∃ next, client.step (.allocate size id) = some next ∧
        Keeps client (.allocate size id) next := by
    intro hnone
    refine ⟨client, ?_, h.keeps rfl fun _ _ _ hlive => hlive⟩
    rw [Client.step, hnone]
    rfl
  by_cases hsize : size = 0
  · exact hnull (by rw [myallocate, if_pos hsize])
  by_cases hsmall : usrSize < size
  · exact hnull (by rw [myallocate, if_neg hsize, if_pos hsmall])
  rcases myallocate_cases (h.region (areaOf id)).1 (h.extent (areaOf id)) hsize hsmall
    with ⟨-, hnone⟩ | ⟨left, block, right, hfits, hexact⟩
  · exact hnull hnone
  rcases hexact with ⟨-, hnone⟩ | ⟨-, placed, hplaced, hsome⟩
  · exact hnull hnone
  have halloc := h.allocations (areaOf id)
  have hextent := h.extent (areaOf id)
  rw [hfits.eq] at halloc hextent
  have htotal : total (left ++ placed ++ right) = (areaOf id).extent := by
    rw [← hextent]
    simp only [total_append, hplaced.total_eq]
  refine ⟨_, by rw [Client.step, hsome]; rfl, ?_⟩
  refine h.keeps_update (areaOf id) (left ++ placed ++ right)
    (fun other hother => Ne.symm hother) ?_ htotal ?_ ?_
  · refine (halloc.allocate hfits.free hplaced (le_extendedSize size)).congr ?_
      fun _ _ _ => rfl
    rintro p n ⟨other, harea, hmem⟩
    rcases List.mem_cons.mp hmem with heq | hmem
    · obtain ⟨-, hrest⟩ := Prod.mk.inj heq
      exact Or.inl (Prod.mk.inj hrest)
    · exact Or.inr ⟨other, harea, hmem⟩
  · intro x hx
    refine Allocations.paint_frame halloc.region.aligned ?_
    rwa [htotal]
  · rintro other hne p n ⟨otherId, harea, hmem⟩
    rcases List.mem_cons.mp hmem with heq | hmem
    · obtain ⟨rfl, -⟩ := Prod.mk.inj heq
      exact absurd harea.symm hne
    · exact ⟨otherId, harea, hmem⟩

/-- The first block of the OS region has no word before it that may be read. -/
theorem release_first (memory : Bytes) :
    BoundaryTag.Bounded.release tagCodec bounds memory hdrSize = none := by
  have hprevious : ∀ memory,
      BoundaryTag.Bounded.previous tagCodec bounds memory hdrSize = none := by
    intro memory
    rw [BoundaryTag.Bounded.previous, BoundaryTag.Bounded.readWord, if_neg (by decide)]
    rfl
  simp only [BoundaryTag.Bounded.release, BoundaryTag.Bounded.coalesce, hprevious,
    Option.bind_eq_bind, Option.bind_none, Option.bind_fun_none]

theorem mydeallocate_first {id : Int} (hid : areaOf id = .os) (memory : Bytes) :
    mydeallocate memory (some hdrSize) id = none := by
  have hbase : whichMemory id = 0 := by
    rw [whichMemory_eq, hid]
    rfl
  simp only [mydeallocate, mydeallocateWithin, hbase]
  rw [if_neg (by decide), release_first, Option.bind_eq_bind, Option.bind_fun_none]

theorem Heaps.deallocate {client : Client} {blocks : Area → List Block}
    (h : Heaps client blocks) {ptr : Option Int} {id : Int}
    (hallowed : client.Allowed (.deallocate ptr id))
    (hguarded : (Op.deallocate ptr id).Guarded) :
    ∃ next, client.step (.deallocate ptr id) = some next ∧
      Keeps client (.deallocate ptr id) next := by
  cases ptr with
  | none =>
      refine ⟨_, rfl, h.keeps rfl ?_⟩
      rintro area p n ⟨other, harea, hmem⟩
      exact ⟨other, harea, (List.mem_filter.mp hmem).1⟩
  | some ptr =>
      obtain ⟨size, hmem⟩ := hallowed
      have halloc := h.allocations (areaOf id)
      have hextent := h.extent (areaOf id)
      obtain ⟨left, block, right, hblocks, -, rfl⟩ :=
        halloc.live_block (p := ptr) ⟨id, rfl, hmem⟩
      obtain ⟨hregion, hhigh⟩ := h.region (areaOf id)
      rw [hblocks] at halloc hextent
      have hmin := block.minimal
      have hle : total left + 12 ≤ (areaOf id).extent := by
        rw [← hextent]
        simp only [total_append, total_cons]
        omega
      have hbound : (areaOf id).extent ≤ 6291456 := by
        cases areaOf id <;> decide
      obtain ⟨hheader, -⟩ := Bounded.header_inside (areaOf id).inside.1 hhigh hblocks
      have hfirst : left = [] → bounds.low ≤ (areaOf id).base - 4 := by
        rintro rfl
        cases harea : areaOf id with
        | os =>
            refine absurd ?_ (hguarded id harea)
            rw [harea]
            rfl
        | user => decide
      have hrelease := Bounded.release_eq (areaOf id).inside.1 hhigh hregion hblocks
        hfirst
      have hstep : mydeallocate client.memory
          (some ((areaOf id).base + total left + 4)) id =
            some (BoundaryTag.release tagCodec client.memory
              ((areaOf id).base + total left + 4)) := by
        have hrelative : asInt ((areaOf id).base + total left + 4 - (areaOf id).base) =
            total left + 4 := by
          rw [asInt_eq (by omega) (by omega)]
          omega
        simp only [mydeallocate, mydeallocateWithin, whichMemory_eq, hrelative]
        rw [if_neg (by unfold osSize usrSize hdrSize; omega),
          BoundaryTag.Bounded.blockFlag_eq hheader, hrelease]
        rfl
      refine ⟨_, by rw [Client.step, hstep]; rfl, ?_⟩
      refine h.keeps_update (areaOf id) (mergeFree (left ++ block.free :: right))
        (fun other hother => Ne.symm hother) ?_ ?_ ?_ ?_
      · refine halloc.release.congr ?_ fun _ _ _ => rfl
        rintro p n ⟨other, harea, hmem⟩
        obtain ⟨hmem, hne⟩ := List.mem_filter.mp hmem
        exact ⟨⟨other, harea, hmem⟩, by simpa using hne⟩
      · rw [← hextent]
        simp
      · intro x hx
        refine halloc.release_frame ?_
        rwa [hextent]
      · rintro other - p n ⟨otherId, harea, hmem⟩
        exact ⟨otherId, harea, (List.mem_filter.mp hmem).1⟩

theorem Heaps.write {client : Client} {blocks : Area → List Block}
    (h : Heaps client blocks) {ptr : Int} {offset : Nat} {byte : UInt8}
    (hallowed : client.Allowed (.write ptr offset byte)) :
    ∃ next, client.step (.write ptr offset byte) = some next ∧
      Keeps client (.write ptr offset byte) next := by
  obtain ⟨id, size, hmem, hoffset⟩ := hallowed
  have hlive : client.liveIn (areaOf id) ptr size := ⟨id, rfl, hmem⟩
  have halloc := h.allocations (areaOf id)
  obtain ⟨room, hroom, hsize⟩ := halloc.owned ptr size hlive
  have hrange := allocatedAt_range hroom
  have hextent := h.extent (areaOf id)
  refine ⟨_, rfl, h.keeps_update (areaOf id) _ nofun
    (halloc.write hlive hoffset byte) hextent ?_ fun _ _ _ _ hlive => hlive⟩
  intro x hx
  refine if_neg ?_
  omega

/-- The step lemma. -/
theorem Heaps.step {client : Client} {blocks : Area → List Block}
    (h : Heaps client blocks) {op : Op} (hallowed : client.Allowed op)
    (hguarded : op.Guarded) :
    ∃ next, client.step op = some next ∧ Keeps client op next := by
  cases op with
  | allocate size id => exact h.allocate size id
  | deallocate ptr id => exact h.deallocate hallowed hguarded
  | write ptr offset byte => exact h.write hallowed

theorem initializeMemory_load (garbage : Bytes) {x : Int} (hx : 4 ∣ x) :
    (initializeMemory garbage).load x =
      if x = 8388604 ∨ x = 2097152 then tagCodec.encode 6291456 0
      else if x = 8388608 ∨ x = 2097148 then 1#32
      else if x = 2097144 ∨ x = 0 then tagCodec.encode 2097148 0
      else Bytes.load (fun y => if 0 ≤ y ∧ y < 8392704 then garbage y else 0) x := by
  simp only [initializeMemory, BoundaryTag.setTag, osSize, usrSize, hdrSize, pageSize]
  rw [Bytes.load_store_aligned _ _ (by decide) hx,
    Bytes.load_store_aligned _ _ (by decide) hx,
    Bytes.load_store_aligned _ _ (by decide) hx,
    Bytes.load_store_aligned _ _ (by decide) hx,
    Bytes.load_store_aligned _ _ (by decide) hx,
    Bytes.load_store_aligned _ _ (by decide) hx]
  by_cases huser : x = 8388604 ∨ x = 2097152
  · rw [if_pos huser]
    rcases huser with rfl | rfl
    · rfl
    · rfl
  rw [if_neg huser, if_neg (by omega)]
  by_cases hend : x = 8388608 ∨ x = 2097148
  · rw [if_pos hend]
    rcases hend with rfl | rfl
    · rfl
    · rfl
  rw [if_neg hend, if_neg (by omega), if_neg (by omega)]
  by_cases hos : x = 2097144 ∨ x = 0
  · rw [if_pos hos]
    rcases hos with rfl | rfl
    · rfl
    · rfl
  · rw [if_neg hos, if_neg (by omega), if_neg (by omega), if_neg (by omega)]
    rfl

def wholeArea (area : Area) : Block where
  size := area.extent
  allocated := false
  minimal := by cases area <;> decide
  aligned := by cases area <;> decide

theorem heaps_initializeMemory (garbage : Bytes) :
    Heaps ⟨initializeMemory garbage, []⟩ fun area => [wholeArea area] where
  allocations area := by
    refine ⟨⟨?_, ?_, ?_, ?_, ?_⟩, List.IsChain.singleton _, ?_⟩
    · cases area <;> decide
    · cases area <;> decide
    · refine ⟨?_, ?_, trivial⟩
      · cases area with
        | os => exact initializeMemory_load garbage (by decide)
        | user => exact initializeMemory_load garbage (by decide)
      · cases area with
        | os => exact initializeMemory_load (x := 2097144) garbage (by decide)
        | user => exact initializeMemory_load (x := 8388604) garbage (by decide)
    · cases area with
      | os =>
          change tagCodec.size ((initializeMemory garbage).load (-4)) = 0
          have hnothing : Bytes.load
              (fun y => if 0 ≤ y ∧ y < 8392704 then garbage y else 0) (-4) =
                Bytes.load (fun _ => 0) (-4) :=
            Bytes.load_congr fun y _ hhigh => if_neg (by omega)
          rw [initializeMemory_load garbage (by decide), if_neg (by decide),
            if_neg (by decide), if_neg (by decide), hnothing]
          rfl
      | user =>
          change tagCodec.size ((initializeMemory garbage).load 2097148) = 0
          rw [initializeMemory_load garbage (by decide), if_neg (by decide),
            if_pos (by decide)]
          rfl
    · cases area with
      | os => exact initializeMemory_load (x := 2097148) garbage (by decide)
      | user => exact initializeMemory_load (x := 8388608) garbage (by decide)
    · rintro p size ⟨id, -, hmem⟩
      cases hmem
  extent area := rfl

theorem WellFormed.unique {memory : Bytes} {area : Area} {first second : List Block}
    (h : WellFormed memory area first) (h' : WellFormed memory area second) :
    first = second := by
  have hlimit : (area.extent : Int) < tagCodec.limit := by cases area <;> decide
  have hend : memory.load (area.base + area.extent) = tagCodec.encode 0 1 := h.epilogue
  apply BoundaryTag.tiles_unique h.tiles h'.tiles
  · rw [h.extent]
    exact hlimit
  · rw [h'.extent]
    exact hlimit
  · rw [h.extent]
    exact hend
  · rw [h'.extent]
    exact hend

theorem contained_of_keeps {client next : Client} {op : Op}
    (hstep : client.step op = some next) (hkeeps : Keeps client op next) :
    Contained client op := by
  obtain ⟨blocks, hheaps⟩ := hkeeps.heaps
  exact ⟨next, hstep, fun area => ⟨_, hheaps.wellFormed area⟩, hkeeps.spares⟩

theorem guarded_of_step {client next : Client} {op : Op}
    (h : client.step op = some next) : op.Guarded := by
  rintro id hid rfl
  rw [Client.step, mydeallocate_first hid] at h
  cases h

/-- The run lemma. -/
theorem Client.Reachable.heaps {client : Client} (h : client.Reachable) :
    ∃ blocks, Heaps client blocks := by
  induction h with
  | start garbage => exact ⟨_, heaps_initializeMemory garbage⟩
  | step op hreach hallowed hstep ih =>
      obtain ⟨blocks, hheaps⟩ := ih
      obtain ⟨next, hnext, hkeeps⟩ := hheaps.step hallowed (guarded_of_step hstep)
      obtain rfl := Option.some.inj (hstep.symm.trans hnext)
      exact hkeeps.heaps

/-- Both regions are well formed in every reachable state, and a call stays inside
its region unless it releases the first block of the OS region, before which there is
no prologue. -/
theorem allocator_contained_iff {client : Client} (h : client.Reachable) :
    (∀ area, ∃ blocks, WellFormed client.memory area blocks) ∧
      ∀ op, client.Allowed op → (Contained client op ↔ op.Guarded) := by
  obtain ⟨blocks, hheaps⟩ := h.heaps
  refine ⟨fun area => ⟨_, hheaps.wellFormed area⟩, fun op hallowed => ⟨?_, ?_⟩⟩
  · rintro ⟨next, hstep, -⟩
    exact guarded_of_step hstep
  · intro hguarded
    obtain ⟨next, hstep, hkeeps⟩ := hheaps.step hallowed hguarded
    exact contained_of_keeps hstep hkeeps

theorem first_allocate (garbage : Bytes) (size : Nat) (id ptr : Int)
    (hanswer : (myallocate (initializeMemory garbage) size id).map Prod.snd =
      some (some ptr)) :
    ∃ client : Client,
      Client.step ⟨initializeMemory garbage, []⟩ (.allocate size id) = some client ∧
        client.Reachable ∧ client.Allowed (.deallocate (some ptr) id) := by
  obtain ⟨⟨memory, answer⟩, hsome, rfl⟩ := Option.map_eq_some_iff.mp hanswer
  have hstep : Client.step ⟨initializeMemory garbage, []⟩ (.allocate size id) =
      some ⟨memory, [(id, ptr, size)]⟩ := by
    rw [Client.step, hsome]
    rfl
  exact ⟨_, hstep, .step (.allocate size id) (.start garbage) trivial hstep, size,
    List.mem_singleton_self _⟩

theorem allocator_contained_iff_user : ∃ client : Client,
    Client.step ⟨initializeMemory fun _ => 7, []⟩ (.allocate 10 999) = some client ∧
      Contained client (.deallocate (some 2097156) 999) := by
  obtain ⟨client, hstep, hreach, hallowed⟩ :=
    first_allocate (fun _ => 7) 10 999 2097156 (by decide +kernel)
  refine ⟨client, hstep, ((allocator_contained_iff hreach).2 _ hallowed).mpr ?_⟩
  intro id hid heq
  cases heq

/-- `mydeallocate(myallocate(10, 69), 69)` as the first two calls. -/
theorem allocator_leaves_arena : ∃ client : Client, client.Reachable ∧
    client.Allowed (.deallocate (some 4) 69) ∧
      ¬ Contained client (.deallocate (some 4) 69) := by
  obtain ⟨client, -, hreach, hallowed⟩ :=
    first_allocate (fun _ => 7) 10 69 4 (by decide +kernel)
  refine ⟨client, hreach, hallowed, ?_⟩
  rintro ⟨next, hstep, -⟩
  exact guarded_of_step hstep 69 rfl rfl

theorem Fits.unique {blocks left left' right right' : List Block} {block block' : Block}
    {size : Nat} (h : Fits blocks left block right size)
    (h' : Fits blocks left' block' right' size) : left = left' ∧ block = block' := by
  have heq : left ++ (block :: right) = left' ++ (block' :: right') := by
    have hblocks := h.eq.symm.trans h'.eq
    simpa using hblocks
  have hno : ∀ {front : List Block} {other : Block}, Full front size →
      other ∈ front → other.allocated = false → extendedSize size ≤ other.size →
        False := by
    intro front other hfull hmem hfree hroom
    rcases hfull other hmem with halloc | hsmall
    · rw [hfree] at halloc
      cases halloc
    · exact Nat.not_lt.mpr hroom hsmall
  rcases List.append_eq_append_iff.mp heq with ⟨mid, hleft, hrest⟩ | ⟨mid, hleft, hrest⟩
  · cases mid with
    | nil =>
        rw [List.append_nil] at hleft
        exact ⟨hleft.symm, (List.cons.inj hrest).1⟩
    | cons first others =>
        obtain ⟨rfl, -⟩ := List.cons.inj hrest
        have hmem : block ∈ left' := by simp [hleft]
        exact (hno h'.lowest hmem h.free h.room).elim
  · cases mid with
    | nil =>
        rw [List.append_nil] at hleft
        exact ⟨hleft, (List.cons.inj hrest).1.symm⟩
    | cons first others =>
        obtain ⟨rfl, -⟩ := List.cons.inj hrest
        have hmem : block' ∈ left := by simp [hleft]
        exact (hno h.lowest hmem h'.free h'.room).elim

structure Complete (area : Area) (blocks : List Block) (size : Nat)
    (answer : Option Int) : Prop where
  null_iff : answer = none ↔ size = 0 ∨ usrSize < size ∨ Full blocks size
  lowest : ∀ ptr, answer = some ptr → ∃ left block right,
    Fits blocks left block right size ∧ ptr = area.base + total left + 4

/-- The lowest free block that is large enough has exactly the size needed. -/
def Exact (blocks : List Block) (size : Nat) : Prop :=
  size ≠ 0 ∧ ¬ usrSize < size ∧ ∃ left block right,
    Fits blocks left block right size ∧ block.size = extendedSize size

theorem Fits.not_full {blocks left right : List Block} {block : Block} {size : Nat}
    (h : Fits blocks left block right size) : ¬ Full blocks size := by
  intro hfull
  have hmem : block ∈ blocks := by simp [h.eq]
  rcases hfull block hmem with halloc | hsmall
  · rw [h.free] at halloc
    cases halloc
  · exact Nat.not_lt.mpr h.room hsmall

/-- First fit finds the lowest block, and then hands it out unless it fits exactly. -/
theorem first_fit_complete_iff {client : Client} (h : client.Reachable) (size : Nat)
    (id : Int) : ∃ blocks memory answer,
      WellFormed client.memory (areaOf id) blocks ∧
        myallocate client.memory size id = some (memory, answer) ∧
          (Complete (areaOf id) blocks size answer ↔ ¬ Exact blocks size) := by
  obtain ⟨blocks, hheaps⟩ := h.heaps
  have hwell := hheaps.wellFormed (areaOf id)
  by_cases hsize : size = 0
  · refine ⟨_, client.memory, none, hwell, by rw [myallocate, if_pos hsize], ?_⟩
    exact iff_of_true ⟨iff_of_true rfl (Or.inl hsize), nofun⟩ fun hexact =>
      hexact.1 hsize
  by_cases hsmall : usrSize < size
  · refine ⟨_, client.memory, none, hwell,
      by rw [myallocate, if_neg hsize, if_pos hsmall], ?_⟩
    exact iff_of_true ⟨iff_of_true rfl (Or.inr (Or.inl hsmall)), nofun⟩ fun hexact =>
      hexact.2.1 hsmall
  rcases myallocate_cases (hheaps.region (areaOf id)).1 (hheaps.extent (areaOf id)) hsize
    hsmall with ⟨hfull, hnone⟩ | ⟨left, block, right, hfits, hexact⟩
  · refine ⟨_, _, none, hwell, hnone, iff_of_true
      ⟨iff_of_true rfl (Or.inr (Or.inr hfull)), nofun⟩ ?_⟩
    rintro ⟨-, -, left, block, right, hfits, -⟩
    exact hfits.not_full hfull
  have hneeded : ¬ (size = 0 ∨ usrSize < size ∨ Full (blocks (areaOf id)) size) := by
    rintro (hzero | hbig | hfull)
    · exact hsize hzero
    · exact hsmall hbig
    · exact hfits.not_full hfull
  rcases hexact with ⟨hexact, hnone⟩ | ⟨hlarger, placed, -, hsome⟩
  · refine ⟨_, _, none, hwell, hnone, iff_of_false ?_ ?_⟩
    · exact fun hcomplete => hneeded (hcomplete.null_iff.mp rfl)
    · exact not_not_intro ⟨hsize, hsmall, left, block, right, hfits, hexact⟩
  · refine ⟨_, _, _, hwell, hsome, iff_of_true ⟨iff_of_false nofun hneeded, ?_⟩ ?_⟩
    · rintro ptr hptr
      exact ⟨left, block, right, hfits, (Option.some.inj hptr).symm⟩
    · rintro ⟨-, -, left', block', right', hfits', heq⟩
      obtain ⟨-, rfl⟩ := hfits.unique hfits'
      exact Nat.ne_of_gt hlarger heq

theorem first_fit_complete_iff_first : ∃ blocks memory answer,
    WellFormed (initializeMemory fun _ => 7) (areaOf 999) blocks ∧
      myallocate (initializeMemory fun _ => 7) 10 999 = some (memory, answer) ∧
        Complete (areaOf 999) blocks 10 answer := by
  obtain ⟨blocks, memory, answer, hwell, hanswer, hiff⟩ :=
    first_fit_complete_iff (.start fun _ => 7) 10 999
  obtain rfl : blocks = [wholeArea (areaOf 999)] :=
    hwell.unique ((heaps_initializeMemory fun _ => 7).wellFormed (areaOf 999))
  refine ⟨_, memory, answer, hwell, hanswer, hiff.mpr ?_⟩
  rintro ⟨-, -, left, block, right, hfits, hexact⟩
  have hmem : block ∈ [wholeArea (areaOf 999)] := by
    rw [hfits.eq]
    simp
  obtain rfl := List.mem_singleton.mp hmem
  exact absurd hexact (by decide)

/-- The whole user region of a fresh heap is asked for, and is not handed out. -/
theorem first_fit_skips_exact : ∃ blocks memory answer,
    WellFormed (initializeMemory fun _ => 7) (areaOf 999) blocks ∧
      myallocate (initializeMemory fun _ => 7) 6291448 999 = some (memory, answer) ∧
        ¬ Complete (areaOf 999) blocks 6291448 answer := by
  have hanswer : (myallocate (initializeMemory fun _ => 7) 6291448 999).map Prod.snd =
      some none := by decide +kernel
  obtain ⟨⟨memory, answer⟩, hsome, rfl⟩ := Option.map_eq_some_iff.mp hanswer
  refine ⟨_, memory, none, (heaps_initializeMemory _).wellFormed (areaOf 999), hsome, ?_⟩
  intro hcomplete
  rcases hcomplete.null_iff.mp rfl with hzero | hbig | hfull
  · cases hzero
  · exact absurd hbig (by decide)
  · rcases hfull _ (List.mem_singleton_self _) with halloc | hsmall
    · cases halloc
    · exact absurd hsmall (by decide)

end RutgersOS.Assignment2.Allocator
