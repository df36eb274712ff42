import RutgersOS.Memory.Merging

namespace RutgersOS.Memory

def allocatedAt : Int → List Block → Int → Option Nat
  | _, [], _ => none
  | start, block :: rest, p =>
      if p = start + 4 ∧ block.allocated = true then some block.size
      else allocatedAt (start + block.size) rest p

theorem allocatedAt_range {start : Int} {blocks : List Block} {p : Int}
    {size : Nat} (h : allocatedAt start blocks p = some size) :
    start + 4 ≤ p ∧ p + size ≤ start + total blocks + 4 := by
  induction blocks generalizing start with
  | nil => simp [allocatedAt] at h
  | cons block rest ih =>
      simp only [allocatedAt] at h
      simp only [total_cons, Int.natCast_add]
      split at h
      · rename_i hcase
        obtain rfl := Option.some.inj h
        omega
      · have hrest := ih h
        omega

theorem allocatedAt_append (start : Int) (left right : List Block) (p : Int) :
    allocatedAt start (left ++ right) p =
      (allocatedAt start left p).or
        (allocatedAt (start + total left) right p) := by
  induction left generalizing start with
  | nil => simp [allocatedAt]
  | cons block rest ih =>
      simp only [List.cons_append, allocatedAt, total_cons]
      split
      · rfl
      · rw [ih, show start + (block.size : Int) + total rest =
          start + ((block.size + total rest : Nat) : Int) by omega]

theorem allocatedAt_free {block : Block} (h : block.allocated = false)
    (start : Int) (rest : List Block) (p : Int) :
    allocatedAt start (block :: rest) p =
      allocatedAt (start + block.size) rest p := by
  rw [allocatedAt, if_neg]
  simp [h]

theorem exists_block_of_allocatedAt {start : Int} {blocks : List Block}
    {p : Int} {size : Nat} (h : allocatedAt start blocks p = some size) :
    ∃ left block right, blocks = left ++ block :: right ∧
      block.allocated = true ∧ block.size = size ∧
        p = start + total left + 4 := by
  induction blocks generalizing start with
  | nil => simp [allocatedAt] at h
  | cons block rest ih =>
      simp only [allocatedAt] at h
      split at h
      · rename_i hcase
        exact ⟨[], block, rest, rfl, hcase.2, Option.some.inj h, by simp [hcase.1]⟩
      · obtain ⟨left, found, right, rfl, halloc, hsize, hp⟩ := ih h
        refine ⟨block :: left, found, right, rfl, halloc, hsize, ?_⟩
        simp only [total_cons, Int.natCast_add]
        omega

theorem allocatedAt_middle {start : Int} (left : List Block)
    {middle : List Block} (right : List Block) {p : Int}
    (hlow : start + total left + 4 ≤ p)
    (hhigh : p < start + total left + total middle + 4) :
    allocatedAt start (left ++ middle ++ right) p =
      allocatedAt (start + total left) middle p := by
  rw [allocatedAt_append, allocatedAt_append, total_append]
  have hleft : allocatedAt start left p = none := by
    cases h : allocatedAt start left p with
    | none => rfl
    | some size =>
        obtain ⟨before, block, after, rfl, -, -, hp⟩ :=
          exists_block_of_allocatedAt h
        have := block.minimal
        simp only [total_append, total_cons] at hlow
        omega
  have hright : allocatedAt (start + ((total left + total middle : Nat) : Int))
      right p = none := by
    cases h : allocatedAt (start + ((total left + total middle : Nat) : Int))
        right p with
    | none => rfl
    | some size =>
        have := allocatedAt_range h
        omega
  rw [hleft, hright, Option.none_or, Option.or_none]

theorem allocatedAt_outside {start : Int} (left : List Block)
    {middle other : List Block} (right : List Block) {p : Int}
    (htotal : total middle = total other)
    (h : p < start + total left + 4 ∨ start + total left + total middle + 4 ≤ p) :
    allocatedAt start (left ++ middle ++ right) p =
      allocatedAt start (left ++ other ++ right) p := by
  simp only [allocatedAt_append, total_append, htotal]
  have habsent : ∀ blocks, total blocks = total other →
      allocatedAt (start + total left) blocks p = none := by
    intro blocks hblocks
    cases hp : allocatedAt (start + total left) blocks p with
    | none => rfl
    | some size =>
        obtain ⟨before, block, after, rfl, -, rfl, -⟩ :=
          exists_block_of_allocatedAt hp
        have hrange := allocatedAt_range hp
        have := block.minimal
        omega
  rw [habsent middle htotal, habsent other rfl]

theorem allocatedAt_joinFront (start : Int) (block : Block)
    (rest : List Block) (p : Int) :
    allocatedAt start (joinFront block rest) p =
      allocatedAt start (block :: rest) p := by
  cases rest with
  | nil => rfl
  | cons next rest =>
      by_cases hboth : block.allocated = false ∧ next.allocated = false
      · rw [joinFront_merge hboth.1 hboth.2, allocatedAt_free rfl,
          allocatedAt_free hboth.1, allocatedAt_free hboth.2, Block.merge_size,
          Int.natCast_add, Int.add_assoc]
      · rw [show joinFront block (next :: rest) = block :: next :: rest from
          if_neg hboth]

theorem allocatedAt_cons_congr {first second : List Block} {start : Int}
    {block : Block} {p : Int}
    (h : allocatedAt (start + block.size) first p =
      allocatedAt (start + block.size) second p) :
    allocatedAt start (block :: first) p =
      allocatedAt start (block :: second) p := by
  simp only [allocatedAt, h]

/-- Merging free blocks hands out the same payloads. -/
theorem allocatedAt_mergeFree (start : Int) (blocks : List Block) (p : Int) :
    allocatedAt start (mergeFree blocks) p = allocatedAt start blocks p := by
  induction blocks generalizing start with
  | nil => rfl
  | cons block rest ih =>
      rw [mergeFree_cons, allocatedAt_joinFront]
      exact allocatedAt_cons_congr (ih _)

theorem allocatedAt_other {block other : Block} (h : block.size = other.size)
    {start : Int} (left right : List Block) {p : Int}
    (hp : p ≠ start + total left + 4) :
    allocatedAt start (left ++ block :: right) p =
      allocatedAt start (left ++ other :: right) p := by
  simp only [allocatedAt_append, allocatedAt, h]
  rw [if_neg (fun hcase => hp hcase.1), if_neg (fun hcase => hp hcase.1)]

theorem allocatedAt_here {block : Block} (start : Int) (left right : List Block) :
    allocatedAt start (left ++ block :: right) (start + total left + 4) =
      if block.allocated = true then some block.size else none := by
  have hminimal := block.minimal
  have hhigh : start + (total left : Int) + 4 <
      start + total left + total [block] + 4 := by
    simp
    omega
  have hmiddle := allocatedAt_middle left right (Int.le_refl _) hhigh
  simp only [List.append_assoc, List.singleton_append] at hmiddle
  rw [hmiddle]
  simp [allocatedAt]

theorem tagAt_payload (codec : TagCodec) {start : Int} {blocks : List Block}
    {p : Int} {size : Nat} (h : allocatedAt start blocks p = some size)
    {x : Int} (hlow : p ≤ x) (hhigh : x + 8 < p + size) :
    tagAt codec start blocks x = none := by
  obtain ⟨left, block, right, rfl, -, rfl, rfl⟩ := exists_block_of_allocatedAt h
  rw [tagAt_append, tagAt_above codec (by omega), Option.none_or,
    tagAt_miss codec (by omega), tagAt_below codec (by omega)]

theorem eq_singleton_of_none {start : Int} {blocks : List Block}
    (hmerged : NoAdjacentFree blocks) (hne : blocks ≠ [])
    (hnone : ∀ p, allocatedAt start blocks p = none) :
    ∃ block, blocks = [block] ∧ block.allocated = false := by
  cases blocks with
  | nil => exact absurd rfl hne
  | cons block rest =>
      have hfree : block.allocated = false := by
        cases hblock : block.allocated with
        | false => rfl
        | true => simpa [allocatedAt, hblock] using hnone (start + 4)
      cases rest with
      | nil => exact ⟨block, rfl, hfree⟩
      | cons next rest =>
          have hnext := hmerged.closed_of_cons hfree next rfl
          have hp := hnone (start + block.size + 4)
          rw [allocatedAt_free hfree] at hp
          simp [allocatedAt, hnext] at hp

/-- How a free block is handed out for a request of `extent` bytes. -/
inductive Placement (extent : Nat) (block : Block) : List Block → Prop
  | split (hmin : 12 ≤ extent) (halign : 4 ∣ extent)
      (hroom : extent + 12 ≤ block.size) :
      Placement extent block
        [Block.front extent hmin halign, block.rest extent halign hroom]
  | whole (hfit : extent ≤ block.size) (htight : block.size < extent + 12) :
      Placement extent block [block.take]

namespace Placement

theorem total_eq {extent : Nat} {block : Block} {placed : List Block}
    (h : Placement extent block placed) : total placed = total [block] := by
  cases h with
  | split hmin halign hroom => simp; omega
  | whole => rfl

/-- Exactly the front of the placed block is a payload. -/
theorem allocatedAt_eq {extent : Nat} {block : Block} {placed : List Block}
    (h : Placement extent block placed) (start : Int) :
    ∃ size, extent ≤ size ∧ ∀ p, allocatedAt start placed p =
      if p = start + 4 then some size else none := by
  cases h with
  | split hmin halign hroom =>
      refine ⟨extent, Nat.le_refl _, fun p => ?_⟩
      simp [allocatedAt]
  | whole hfit htight =>
      refine ⟨block.size, hfit, fun p => ?_⟩
      simp [allocatedAt]

theorem merged {extent : Nat} {block : Block} {placed : List Block}
    (h : Placement extent block placed) (hfree : block.allocated = false)
    {left right : List Block}
    (hmerged : NoAdjacentFree (left ++ [block] ++ right)) :
    NoAdjacentFree (left ++ placed ++ right) := by
  have houter := List.isChain_append.mp (by simpa using hmerged :
    NoAdjacentFree (left ++ (block :: right)))
  have hright := List.isChain_cons.mp houter.2.1
  rw [List.append_assoc]
  refine List.isChain_append.mpr ⟨houter.1, ?_, ?_⟩
  · cases h with
    | split hmin halign hroom =>
        refine List.isChain_cons_cons.mpr ⟨Or.inl rfl, ?_⟩
        refine List.isChain_cons.mpr ⟨fun next hnext => ?_, hright.2⟩
        exact Or.inr (by simpa [hfree] using hright.1 next hnext)
    | whole => exact List.isChain_cons.mpr ⟨fun _ _ => Or.inl rfl, hright.2⟩
  · intro last hlast first hfirst
    cases h with
    | split hmin halign hroom =>
        obtain rfl : Block.front extent hmin halign = first := by
          simpa using hfirst
        exact Or.inr rfl
    | whole =>
        obtain rfl : block.take = first := by simpa using hfirst
        exact Or.inr rfl

theorem release {extent : Nat} {block : Block} {placed : List Block}
    (h : Placement extent block placed) (hfree : block.allocated = false)
    {left right : List Block}
    (hmerged : NoAdjacentFree (left ++ [block] ++ right)) :
    ∃ first rest, placed = first :: rest ∧
      mergeFree (left ++ first.free :: (rest ++ right)) = left ++ [block] ++ right := by
  have hwhole : mergeFree (left ++ block :: right) = left ++ [block] ++ right := by
    rw [List.append_assoc] at hmerged ⊢
    exact mergeFree_of_chain hmerged
  cases h with
  | split hmin halign hroom =>
      refine ⟨_, _, rfl, ?_⟩
      have hsum : (Block.front extent hmin halign).free.merge
          (block.rest extent halign hroom) = block := by
        ext
        · simp
          omega
        · simp [hfree]
      have hparts : mergeFree ((Block.front extent hmin halign).free ::
          block.rest extent halign hroom :: right) = mergeFree (block :: right) := by
        rw [mergeFree_cons, mergeFree_cons,
          joinFront_joinFront (Block.free_allocated _) (Block.rest_allocated ..), hsum]
        rfl
      rw [← hwhole, ← mergeFree_append_right, ← mergeFree_append_right left (block :: right)]
      exact congrArg (fun blocks => mergeFree (left ++ blocks)) hparts
  | whole hfit htight =>
      refine ⟨_, _, rfl, ?_⟩
      have hsame : block.take.free = block := Block.free_of_not_allocated hfree
      rw [← hwhole, hsame, List.nil_append]

end Placement

def Block.shape (block : Block) : Nat × Bool :=
  (block.size, block.allocated)

def served (extent : Nat) (block : Block) : List (Nat × Bool) :=
  if 8 < (block.size : Int) - extent then [(extent, true), (block.size - extent, false)]
  else [(block.size, true)]

/-- The lowest free block that is large enough serves the request, and the others
stay. -/
inductive FirstFit (start : Int) (extent : Nat) : List Block → Int → List Block → Prop
  | mk {left right placed : List Block} {block : Block} (hfree : block.allocated = false)
      (hfit : extent ≤ block.size)
      (hlowest : ∀ other ∈ left, other.allocated = true ∨ other.size < extent)
      (hplaced : placed.map Block.shape = served extent block) :
      FirstFit start extent (left ++ [block] ++ right) (start + total left + 4)
        (left ++ placed ++ right)

theorem Placement.shapes {extent : Nat} {block : Block} {placed : List Block}
    (h : Placement extent block placed) (halign : 4 ∣ extent) :
    extent ≤ block.size ∧ placed.map Block.shape = served extent block := by
  have haligned := block.aligned
  cases h with
  | split hmin hextent hroom =>
      refine ⟨by omega, ?_⟩
      rw [served, if_pos (by omega)]
      rfl
  | whole hfit htight =>
      refine ⟨hfit, ?_⟩
      rw [served, if_neg (by omega)]
      rfl

end RutgersOS.Memory
