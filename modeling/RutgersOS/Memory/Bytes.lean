namespace RutgersOS.Memory

/-! Byte-addressed memory with little-endian 32-bit words. Addresses are
integers, so pointer arithmetic never needs a side condition. -/

abbrev Bytes := Int → UInt8

namespace Bytes

def word8 (word : BitVec 32) (index : Nat) : UInt8 :=
  ⟨word.extractLsb' (8 * index) 8⟩

def load (memory : Bytes) (address : Int) : BitVec 32 :=
  (memory (address + 3)).toBitVec ++ (memory (address + 2)).toBitVec ++
    (memory (address + 1)).toBitVec ++ (memory address).toBitVec

def store (memory : Bytes) (address : Int) (word : BitVec 32) : Bytes :=
  fun x =>
    if x = address then word8 word 0
    else if x = address + 1 then word8 word 1
    else if x = address + 2 then word8 word 2
    else if x = address + 3 then word8 word 3
    else memory x

theorem append_word8 (word : BitVec 32) :
    (word8 word 3).toBitVec ++ (word8 word 2).toBitVec ++
      (word8 word 1).toBitVec ++ (word8 word 0).toBitVec = word := by
  apply BitVec.eq_of_getLsbD_eq
  intro i hi
  simp only [word8, BitVec.getLsbD_append, BitVec.getLsbD_extractLsb']
  grind

theorem load_congr {first second : Bytes} {address : Int}
    (h : ∀ x, address ≤ x → x < address + 4 → first x = second x) :
    first.load address = second.load address := by
  simp only [load]
  rw [h address (by omega) (by omega), h (address + 1) (by omega) (by omega),
    h (address + 2) (by omega) (by omega), h (address + 3) (by omega) (by omega)]

theorem store_outside (memory : Bytes) (word : BitVec 32) {address x : Int}
    (h : x < address ∨ address + 4 ≤ x) :
    memory.store address word x = memory x := by
  simp only [store]
  grind

@[simp] theorem load_store_same (memory : Bytes) (address : Int)
    (word : BitVec 32) : (memory.store address word).load address = word := by
  have h1 : ¬ address + 1 = address := by omega
  have h2 : ¬ address + 2 = address ∧ ¬ address + 2 = address + 1 := by omega
  have h3 : ¬ address + 3 = address ∧ ¬ address + 3 = address + 1 ∧
      ¬ address + 3 = address + 2 := by omega
  simp only [load, store, h1, h2, h3, if_true, if_false]
  exact append_word8 word

theorem load_store_disjoint (memory : Bytes) (word : BitVec 32)
    {address other : Int} (h : other + 4 ≤ address ∨ address + 4 ≤ other) :
    (memory.store address word).load other = memory.load other :=
  load_congr fun _ _ _ => store_outside memory word (by omega)

theorem load_store_aligned (memory : Bytes) (word : BitVec 32)
    {address other : Int} (ha : 4 ∣ address) (ho : 4 ∣ other) :
    (memory.store address word).load other =
      if other = address then word else memory.load other := by
  by_cases h : other = address
  · subst h
    simp
  · rw [if_neg h, load_store_disjoint]
    omega

/-- A word is determined by its four bytes and conversely. -/
theorem eq_of_load_eq {first second : Bytes} {address : Int}
    (h : first.load address = second.load address) {x : Int}
    (hlow : address ≤ x) (hhigh : x < address + 4) : first x = second x := by
  have hbits : ∀ i, (first.load address).getLsbD i =
      (second.load address).getLsbD i := fun i => by rw [h]
  have hcases : x = address ∨ x = address + 1 ∨ x = address + 2 ∨
      x = address + 3 := by omega
  apply UInt8.toBitVec_inj.mp
  apply BitVec.eq_of_getLsbD_eq
  intro i hi
  simp only [load, BitVec.getLsbD_append] at hbits
  rcases hcases with rfl | rfl | rfl | rfl
  · have := hbits i
    grind
  · have := hbits (i + 8)
    grind
  · have := hbits (i + 16)
    grind
  · have := hbits (i + 24)
    grind

theorem store_load_same (memory : Bytes) (address : Int) :
    memory.store address (memory.load address) = memory := by
  funext x
  by_cases h : x < address ∨ address + 4 ≤ x
  · exact store_outside memory _ h
  · exact eq_of_load_eq (load_store_same memory address _) (by omega) (by omega)

theorem ext_aligned {first second : Bytes}
    (h : ∀ address, 4 ∣ address → first.load address = second.load address) :
    first = second := by
  funext x
  have hword : 4 ∣ x - x % 4 := by omega
  exact eq_of_load_eq (h _ hword) (by omega) (by omega)

end Bytes

end RutgersOS.Memory
