import RutgersOS.Memory.Allocations
import RutgersOS.Memory.Layouts
import RutgersOS.Memory.Placement

namespace RutgersOS.Memory

/-! A region all of whose allocated blocks belong to keys, one block a key: nothing
is lost in it, and its blocks follow from what the keys hold. -/

variable {Key : Type u} {codec : TagCodec} {memory : Bytes} {start : Int}
  {holder : Key → Option Int} {size : Key → Nat} {blocks left right : List Block}
  {block : Block} {key : Key}

structure Holdings (codec : TagCodec) (memory : Bytes) (start : Int)
    (holder : Key → Option Int) (size : Key → Nat) (blocks : List Block) : Prop where
  allocations : Allocations codec memory start
    (fun p n => ∃ key, holder key = some p ∧ n = size key) blocks
  held : ∀ p room, allocatedAt start blocks p = some room → ∃ key, holder key = some p
  separate : Separate holder

/-- The blocks of two lists behind the pointers that are held before and after. -/
def SameRooms (start : Int) (holder holder' : Key → Option Int)
    (blocks blocks' : List Block) : Prop :=
  ∀ key p, holder key = some p → holder' key = some p →
    allocatedAt start blocks' p = allocatedAt start blocks p

namespace Holdings

theorem room (h : Holdings codec memory start holder size blocks) {p : Int}
    (hkey : holder key = some p) :
    ∃ room, allocatedAt start blocks p = some room ∧ size key + 8 ≤ room :=
  h.allocations.owned p (size key) ⟨key, hkey, rfl⟩

theorem congr (h : Holdings codec memory start holder size blocks) {other : Bytes}
    (hsame : ∀ x, start - 4 ≤ x → x < start + total blocks + 4 → other x = memory x) :
    Holdings codec other start holder size blocks where
  allocations := h.allocations.congr (fun _ _ hlive => hlive) hsame
  held := h.held
  separate := h.separate

theorem write (h : Holdings codec memory start holder size blocks) {p : Int}
    (hkey : holder key = some p) {offset : Nat} (hoffset : offset < size key) (byte : UInt8) :
    Holdings codec (fun x => if x = p + offset then byte else memory x) start holder size
      blocks where
  allocations := h.allocations.write ⟨key, hkey, rfl⟩ hoffset byte
  held := h.held
  separate := h.separate

variable [DecidableEq Key]

theorem claim {extent : Nat} {placed : List Block}
    (h : Holdings codec memory start holder size (left ++ [block] ++ right))
    (hkey : holder key = none) (hfree : block.allocated = false)
    (hplaced : Placement extent block placed) (hsize : size key + 8 ≤ extent) :
    Holdings codec (paint codec memory start (left ++ placed ++ right)) start
        (Function.update holder key (some (start + total left + 4))) size
        (left ++ placed ++ right) ∧
      SameRooms start holder (Function.update holder key (some (start + total left + 4)))
        (left ++ [block] ++ right) (left ++ placed ++ right) := by
  have hat := Allocations.allocatedAt_placed hfree hplaced start left right
  have hunheld : ∀ other, holder other ≠ some (start + total left + 4) := by
    intro other hother
    obtain ⟨room, hroom, -⟩ := h.room hother
    rw [(hat (start + total left + 4)).1] at hroom
    cases hroom
  refine ⟨⟨?_, ?_, ?_⟩, ?_⟩
  · refine (h.allocations.allocate hfree hplaced hsize).congr ?_ fun _ _ _ => rfl
    rintro p n ⟨other, hother, rfl⟩
    rcases Classical.em (other = key) with rfl | hne
    · rw [Function.update_self] at hother
      exact Or.inl ⟨(Option.some.inj hother).symm, rfl⟩
    · rw [Function.update_of_ne hne] at hother
      exact Or.inr ⟨other, hother, rfl⟩
  · intro p room hp
    rcases Classical.em (p = start + total left + 4) with rfl | hne
    · exact ⟨key, Function.update_self _ _ _⟩
    · rw [(hat p).2.1 hne] at hp
      obtain ⟨other, hother⟩ := h.held p room hp
      refine ⟨other, ?_⟩
      rw [Function.update_of_ne, hother]
      rintro rfl
      rw [hkey] at hother
      cases hother
  · refine separate_of_kept h.separate
      (fun other (hne : other ≠ key) => Function.update_of_ne hne _ _) ?_
    intro p hp other _
    rw [Function.update_self] at hp
    rw [← Option.some.inj hp]
    exact hunheld other
  · intro other p hother _
    refine (hat p).2.1 ?_
    rintro rfl
    exact hunheld other hother

theorem release (h : Holdings codec memory start holder size (left ++ block :: right))
    (hkey : holder key = some (start + total left + 4)) :
    Holdings codec (BoundaryTag.release codec memory (start + total left + 4)) start
        (Function.update holder key none) size (mergeFree (left ++ block.free :: right)) ∧
      SameRooms start holder (Function.update holder key none) (left ++ block :: right)
        (mergeFree (left ++ block.free :: right)) := by
  have hat : ∀ p, p ≠ start + total left + 4 →
      allocatedAt start (mergeFree (left ++ block.free :: right)) p =
        allocatedAt start (left ++ block :: right) p := by
    intro p hne
    rw [allocatedAt_mergeFree, allocatedAt_other block.free_size left right hne]
  have hother : ∀ {other p}, Function.update holder key none other = some p →
      holder other = some p ∧ p ≠ start + total left + 4 := by
    intro other p hp
    rcases Classical.em (other = key) with rfl | hne
    · rw [Function.update_self] at hp
      cases hp
    · rw [Function.update_of_ne hne] at hp
      refine ⟨hp, ?_⟩
      rintro rfl
      exact hne (h.separate other key _ hp hkey)
  refine ⟨⟨?_, ?_, ?_⟩, ?_⟩
  · refine h.allocations.release.congr ?_ fun _ _ _ => rfl
    rintro p n ⟨other, hp, rfl⟩
    exact ⟨⟨other, (hother hp).1, rfl⟩, (hother hp).2⟩
  · intro p room hp
    have hne : p ≠ start + total left + 4 := by
      rintro rfl
      rw [allocatedAt_mergeFree, allocatedAt_here] at hp
      cases hp
    rw [hat p hne] at hp
    obtain ⟨other, hheld⟩ := h.held p room hp
    refine ⟨other, ?_⟩
    rw [Function.update_of_ne, hheld]
    rintro rfl
    rw [hkey] at hheld
    exact hne (Option.some.inj hheld).symm
  · intro first second p hfirst hsecond
    exact h.separate first second p (hother hfirst).1 (hother hsecond).1
  · exact fun other p _ hp => hat p (hother hp).2

omit [DecidableEq Key] in
/-- The same keys with the same rooms make the same region. -/
theorem eq_blocks {memory' : Bytes} {blocks' : List Block} {holder' : Key → Option Int}
    (h : Holdings codec memory start holder size blocks)
    (h' : Holdings codec memory' start holder' size blocks') (htotal : total blocks = total blocks')
    (hsame : holder = holder') (hrooms : SameRooms start holder holder' blocks blocks') :
    blocks = blocks' := by
  subst hsame
  have hpayloads : ∀ p, allocatedAt start blocks p = allocatedAt start blocks' p := by
    intro p
    cases hp : allocatedAt start blocks p with
    | some room =>
        obtain ⟨key, hkey⟩ := h.held p room hp
        rw [hrooms key p hkey hkey, hp]
    | none =>
        cases hp' : allocatedAt start blocks' p with
        | none => rfl
        | some room =>
            obtain ⟨key, hkey⟩ := h'.held p room hp'
            rw [hrooms key p hkey hkey, hp] at hp'
            cases hp'
  exact h.allocations.merged.eq_of_payloads h'.allocations.merged htotal hpayloads

end Holdings

end RutgersOS.Memory
