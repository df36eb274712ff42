import RutgersOS.Memory.Bytes

namespace RutgersOS.Memory

/-! Regions tiled by blocks that carry their size and status in a header and
a footer word.  A block list describes the region from its first header on. -/

theorem even_word {n : Nat} (heven : 2 ∣ n) :
    (BitVec.ofNat 32 n).getLsbD 0 = false := by
  have : n % 2 = 0 := by omega
  rw [BitVec.getLsbD_ofNat]
  simp [this]

theorem mask_bit (i : Nat) (hi : i + 1 < 32) :
    (~~~ 1#32).getLsbD (i + 1) = true := by
  have hall : ∀ j : Fin 31, (~~~ 1#32).getLsbD (j.val + 1) = true := by decide
  exact hall ⟨i, by omega⟩

theorem one_bit (i : Nat) (hi : i + 1 < 32) :
    (1#32).getLsbD (i + 1) = false := by
  have hall : ∀ j : Fin 31, (1#32).getLsbD (j.val + 1) = false := by decide
  exact hall ⟨i, by omega⟩

theorem size_bits {n : Nat} (heven : 2 ∣ n) {f : Int}
    (hflag : f = 0 ∨ f = 1) :
    (BitVec.ofNat 32 n ||| BitVec.ofInt 32 f) &&& ~~~ 1#32 =
      BitVec.ofNat 32 n := by
  apply BitVec.eq_of_getLsbD_eq
  intro i hi
  rw [BitVec.getLsbD_and, BitVec.getLsbD_or]
  cases i with
  | zero =>
      rw [even_word heven, Bool.false_or, show (~~~ 1#32).getLsbD 0 = false by
        decide, Bool.and_false]
  | succ i =>
      rw [mask_bit i hi, Bool.and_true]
      rcases hflag with rfl | rfl
      · simp
      · rw [show BitVec.ofInt 32 1 = 1#32 from rfl, one_bit i hi, Bool.or_false]

theorem flag_bits {n : Nat} (heven : 2 ∣ n) {f : Int}
    (hflag : f = 0 ∨ f = 1) :
    (BitVec.ofNat 32 n ||| BitVec.ofInt 32 f) &&& 1#32 = BitVec.ofInt 32 f := by
  apply BitVec.eq_of_getLsbD_eq
  intro i hi
  rw [BitVec.getLsbD_and, BitVec.getLsbD_or]
  cases i with
  | zero =>
      rw [even_word heven, Bool.false_or]
      rcases hflag with rfl | rfl <;> rfl
  | succ i =>
      rw [one_bit i hi, Bool.and_false]
      rcases hflag with rfl | rfl
      · simp
      · exact (one_bit i hi).symm

/-- A word format for boundary tags.  Sizes below `limit` survive encoding. -/
structure TagCodec where
  encode : Int → Int → BitVec 32
  size : BitVec 32 → Int
  flag : BitVec 32 → Int
  limit : Int
  size_encode : ∀ n f, 0 ≤ n → n < limit → 4 ∣ n → f = 0 ∨ f = 1 →
    size (encode n f) = n
  flag_encode : ∀ n f, 0 ≤ n → n < limit → 4 ∣ n → f = 0 ∨ f = 1 →
    flag (encode n f) = f

@[ext] structure Block where
  size : Nat
  allocated : Bool
  minimal : 12 ≤ size
  aligned : 4 ∣ size
  deriving DecidableEq

namespace Block

def free (block : Block) : Block :=
  { block with allocated := false }

def take (block : Block) : Block :=
  { block with allocated := true }

def merge (first second : Block) : Block where
  size := first.size + second.size
  allocated := false
  minimal := Nat.le_add_right_of_le first.minimal
  aligned := Nat.dvd_add first.aligned second.aligned

def front (size : Nat) (hmin : 12 ≤ size) (halign : 4 ∣ size) : Block :=
  ⟨size, true, hmin, halign⟩

def rest (block : Block) (size : Nat) (halign : 4 ∣ size)
    (hroom : size + 12 ≤ block.size) : Block where
  size := block.size - size
  allocated := false
  minimal := by omega
  aligned := Nat.dvd_sub block.aligned halign

def flag (block : Block) : Int :=
  if block.allocated then 1 else 0

theorem flag_cases (block : Block) : block.flag = 0 ∨ block.flag = 1 := by
  unfold flag
  split <;> simp

def tag (codec : TagCodec) (block : Block) : BitVec 32 :=
  codec.encode block.size block.flag

@[simp] theorem free_size (block : Block) : block.free.size = block.size := rfl
@[simp] theorem free_allocated (block : Block) :
    block.free.allocated = false := rfl
@[simp] theorem take_size (block : Block) : block.take.size = block.size := rfl
@[simp] theorem take_allocated (block : Block) :
    block.take.allocated = true := rfl
@[simp] theorem merge_size (first second : Block) :
    (first.merge second).size = first.size + second.size := rfl
@[simp] theorem merge_allocated (first second : Block) :
    (first.merge second).allocated = false := rfl
@[simp] theorem front_size (size : Nat) (hmin : 12 ≤ size)
    (halign : 4 ∣ size) : (front size hmin halign).size = size := rfl
@[simp] theorem front_allocated (size : Nat) (hmin : 12 ≤ size)
    (halign : 4 ∣ size) : (front size hmin halign).allocated = true := rfl
@[simp] theorem rest_size (block : Block) (size : Nat) (halign : 4 ∣ size)
    (hroom : size + 12 ≤ block.size) :
    (block.rest size halign hroom).size = block.size - size := rfl
@[simp] theorem rest_allocated (block : Block) (size : Nat)
    (halign : 4 ∣ size) (hroom : size + 12 ≤ block.size) :
    (block.rest size halign hroom).allocated = false := rfl

theorem free_of_not_allocated {block : Block}
    (h : block.allocated = false) : block.free = block := by
  ext <;> simp [h]

theorem flag_of_free {block : Block} (h : block.allocated = false) :
    block.flag = 0 := by simp [flag, h]

theorem flag_of_allocated {block : Block} (h : block.allocated = true) :
    block.flag = 1 := by simp [flag, h]

theorem merge_assoc (first second third : Block) :
    (first.merge second).merge third = first.merge (second.merge third) := by
  ext <;> simp [Nat.add_assoc]

end Block

def total : List Block → Nat
  | [] => 0
  | block :: rest => block.size + total rest

@[simp] theorem total_nil : total [] = 0 := rfl

@[simp] theorem total_cons (block : Block) (rest : List Block) :
    total (block :: rest) = block.size + total rest := rfl

@[simp] theorem total_append (first second : List Block) :
    total (first ++ second) = total first + total second := by
  induction first with
  | nil => simp
  | cons block rest ih => simp [ih, Nat.add_assoc]

theorem four_dvd_total (blocks : List Block) : 4 ∣ total blocks := by
  induction blocks with
  | nil => simp
  | cons block rest ih => exact Nat.dvd_add block.aligned ih

theorem length_le_total (blocks : List Block) :
    12 * blocks.length ≤ total blocks := by
  induction blocks with
  | nil => simp
  | cons block rest ih =>
      have := block.minimal
      simp only [List.length_cons, total_cons]
      omega

section Tags

variable (codec : TagCodec)

def tagAt : Int → List Block → Int → Option (BitVec 32)
  | _, [], _ => none
  | start, block :: rest, x =>
      if x = start ∨ x = start + block.size - 4 then some (block.tag codec)
      else tagAt (start + block.size) rest x

theorem tagAt_hit {start : Int} {block : Block} {x : Int}
    (h : x = start ∨ x = start + block.size - 4) (rest : List Block) :
    tagAt codec start (block :: rest) x = some (block.tag codec) :=
  if_pos h

theorem tagAt_miss {start : Int} {block : Block} {x : Int}
    (h : ¬ (x = start ∨ x = start + block.size - 4)) (rest : List Block) :
    tagAt codec start (block :: rest) x =
      tagAt codec (start + block.size) rest x :=
  if_neg h

theorem tagAt_pair {start : Int} {first second : Block} {x : Int}
    (h : (tagAt codec start [first, second] x).isSome) :
    (x = start ∨ x = start + first.size - 4) ∨
      x = start + first.size ∨ x = start + first.size + second.size - 4 := by
  rw [tagAt] at h
  split at h
  · next hfirst => exact Or.inl hfirst
  · rw [tagAt] at h
    split at h
    · next hsecond => exact Or.inr hsecond
    · cases h

theorem tagAt_range {start : Int} {blocks : List Block} {x : Int}
    {word : BitVec 32} (h : tagAt codec start blocks x = some word) :
    start ≤ x ∧ x + 4 ≤ start + total blocks := by
  induction blocks generalizing start with
  | nil => simp [tagAt] at h
  | cons block rest ih =>
      have hmin := block.minimal
      simp only [tagAt] at h
      simp only [total_cons]
      split at h
      · omega
      · have := ih h
        omega

theorem tagAt_below {start : Int} {blocks : List Block} {x : Int}
    (h : x < start) : tagAt codec start blocks x = none := by
  cases htag : tagAt codec start blocks x with
  | none => rfl
  | some word =>
      have := tagAt_range codec htag
      omega

theorem tagAt_above {start : Int} {blocks : List Block} {x : Int}
    (h : start + total blocks < x + 4) : tagAt codec start blocks x = none := by
  cases htag : tagAt codec start blocks x with
  | none => rfl
  | some word =>
      have := tagAt_range codec htag
      omega

theorem tagAt_append (start : Int) (first second : List Block) (x : Int) :
    tagAt codec start (first ++ second) x =
      (tagAt codec start first x).or
        (tagAt codec (start + total first) second x) := by
  induction first generalizing start with
  | nil => simp [tagAt]
  | cons block rest ih =>
      simp only [List.cons_append, tagAt, total_cons]
      split
      · rfl
      · rw [ih, show start + (block.size : Int) + total rest =
          start + ((block.size + total rest : Nat) : Int) by omega]

/-- A region is tiled when every header and footer word is in place. -/
def Tiles (memory : Bytes) : Int → List Block → Prop
  | _, [] => True
  | start, block :: rest =>
      memory.load start = block.tag codec ∧
        memory.load (start + block.size - 4) = block.tag codec ∧
        Tiles memory (start + block.size) rest

theorem tiles_iff {memory : Bytes} {start : Int} {blocks : List Block} :
    Tiles codec memory start blocks ↔
      ∀ x word, tagAt codec start blocks x = some word →
        memory.load x = word := by
  induction blocks generalizing start with
  | nil => simp [Tiles, tagAt]
  | cons block rest ih =>
      simp only [Tiles, tagAt, ih]
      constructor
      · rintro ⟨hheader, hfooter, hrest⟩ x word hx
        split at hx
        · rename_i hcase
          obtain rfl := Option.some.inj hx
          rcases hcase with rfl | rfl
          · exact hheader
          · exact hfooter
        · exact hrest x word hx
      · intro h
        refine ⟨h start _ (by simp), h (start + block.size - 4) _ (by simp), ?_⟩
        intro x word hx
        have hrange := tagAt_range codec hx
        have hmin := block.minimal
        apply h x word
        rw [if_neg (by omega)]
        exact hx

theorem Tiles.append_iff {memory : Bytes} {start : Int}
    {first second : List Block} :
    Tiles codec memory start (first ++ second) ↔
      Tiles codec memory start first ∧
        Tiles codec memory (start + total first) second := by
  induction first generalizing start with
  | nil => simp [Tiles]
  | cons block rest ih =>
      simp only [List.cons_append, Tiles, total_cons, ih, and_assoc]
      rw [show start + (block.size : Int) + total rest =
        start + ((block.size + total rest : Nat) : Int) by omega]

/-- Write the tag words of every block. -/
def paint (memory : Bytes) : Int → List Block → Bytes
  | _, [] => memory
  | start, block :: rest =>
      paint ((memory.store start (block.tag codec)).store
        (start + block.size - 4) (block.tag codec)) (start + block.size) rest

/-- Overwrite the tag words of every block with one word. -/
def wipe (word : BitVec 32) (memory : Bytes) : Int → List Block → Bytes
  | _, [] => memory
  | start, block :: rest =>
      wipe word ((memory.store start word).store
        (start + block.size - 4) word) (start + block.size) rest

theorem load_paint (memory : Bytes) {start : Int} (blocks : List Block)
    {x : Int} (hstart : 4 ∣ start) (hx : 4 ∣ x) :
    (paint codec memory start blocks).load x =
      (tagAt codec start blocks x).getD (memory.load x) := by
  induction blocks generalizing start memory with
  | nil => rfl
  | cons block rest ih =>
      have haligned := block.aligned
      have hmin := block.minimal
      simp only [paint, tagAt]
      rw [ih _ (by omega), Bytes.load_store_aligned _ _ (by omega) hx,
        Bytes.load_store_aligned _ _ hstart hx]
      by_cases hhit : x = start ∨ x = start + block.size - 4
      · rw [if_pos hhit, tagAt_below codec (by omega)]
        rcases hhit with rfl | rfl
        · simp
        · simp
      · rw [if_neg hhit, if_neg (by omega), if_neg (by omega)]

theorem load_wipe (word : BitVec 32) (memory : Bytes) {start : Int}
    (blocks : List Block) {x : Int} (hstart : 4 ∣ start) (hx : 4 ∣ x) :
    (wipe word memory start blocks).load x =
      (tagAt codec start blocks x).elim (memory.load x) (fun _ => word) := by
  induction blocks generalizing start memory with
  | nil => rfl
  | cons block rest ih =>
      have haligned := block.aligned
      have hmin := block.minimal
      simp only [wipe, tagAt]
      rw [ih _ (by omega), Bytes.load_store_aligned _ _ (by omega) hx,
        Bytes.load_store_aligned _ _ hstart hx]
      by_cases hhit : x = start ∨ x = start + block.size - 4
      · rw [if_pos hhit, tagAt_below codec (by omega)]
        rcases hhit with rfl | rfl
        · simp
        · simp
      · rw [if_neg hhit, if_neg (by omega), if_neg (by omega)]

theorem tagAt_aligned {start : Int} {blocks : List Block} {x : Int}
    {word : BitVec 32} (hstart : 4 ∣ start)
    (h : tagAt codec start blocks x = some word) : 4 ∣ x := by
  induction blocks generalizing start with
  | nil => simp [tagAt] at h
  | cons block rest ih =>
      have haligned := block.aligned
      simp only [tagAt] at h
      split at h
      · omega
      · exact ih (by omega) h

theorem tiles_paint (memory : Bytes) {start : Int} (hstart : 4 ∣ start)
    (blocks : List Block) :
    Tiles codec (paint codec memory start blocks) start blocks := by
  rw [tiles_iff]
  intro x word hx
  rw [load_paint codec memory blocks hstart (tagAt_aligned codec hstart hx), hx]
  rfl

/-- Replacing the blocks `old` in the middle of a tiled region by blocks of the
same extent: it is enough to describe the words of the middle. -/
theorem splice_eq {word : BitVec 32} {memory after : Bytes} {start : Int}
    {left old new right : List Block} (hstart : 4 ∣ start)
    (htiles : Tiles codec memory start (left ++ old ++ right))
    (htotal : total new = total old)
    (hlocal : ∀ x, 4 ∣ x → after.load x =
      (tagAt codec (start + total left) new x).getD
        ((tagAt codec (start + total left) old x).elim (memory.load x)
          (fun _ => word))) :
    after = paint codec (wipe word memory start (left ++ old ++ right))
      start (left ++ new ++ right) := by
  apply Bytes.ext_aligned
  intro x hx
  rw [hlocal x hx, load_paint codec _ _ hstart hx,
    load_wipe codec word memory _ hstart hx]
  simp only [tagAt_append, total_append, htotal]
  rw [Tiles.append_iff, Tiles.append_iff, total_append] at htiles
  obtain ⟨⟨hleft, -⟩, hright⟩ := htiles
  cases hl : tagAt codec start left x with
  | some tag =>
      have hrange := tagAt_range codec hl
      rw [tagAt_below codec (by omega), tagAt_below codec (by omega)]
      simpa using (tiles_iff codec).mp hleft x tag hl
  | none =>
      cases hr : tagAt codec (start + ((total left + total old : Nat) : Int))
          right x with
      | none => simp
      | some tag =>
          have hrange := tagAt_range codec hr
          rw [tagAt_above codec (by omega), tagAt_above codec (by omega)]
          simpa using (tiles_iff codec).mp hright x tag hr

theorem splice_paint_eq {memory after : Bytes} {start : Int}
    {left old new right : List Block} (hstart : 4 ∣ start)
    (htiles : Tiles codec memory start (left ++ old ++ right))
    (htotal : total new = total old)
    (hlocal : ∀ x, 4 ∣ x → after.load x =
      (tagAt codec (start + total left) new x).getD (memory.load x)) :
    after = paint codec memory start (left ++ new ++ right) := by
  apply Bytes.ext_aligned
  intro x hx
  rw [hlocal x hx, load_paint codec _ _ hstart hx]
  simp only [tagAt_append, total_append, htotal]
  rw [Tiles.append_iff, Tiles.append_iff, total_append] at htiles
  obtain ⟨⟨hleft, -⟩, hright⟩ := htiles
  cases hl : tagAt codec start left x with
  | some tag =>
      have hrange := tagAt_range codec hl
      rw [tagAt_below codec (by omega)]
      simpa using (tiles_iff codec).mp hleft x tag hl
  | none =>
      cases hr : tagAt codec (start + ((total left + total old : Nat) : Int))
          right x with
      | none => simp
      | some tag =>
          have hrange := tagAt_range codec hr
          rw [tagAt_above codec (by omega)]
          simpa using (tiles_iff codec).mp hright x tag hr

theorem tagAt_isSome_congr {first second : List Block}
    (h : first.map Block.size = second.map Block.size) (start x : Int) :
    (tagAt codec start first x).isSome = (tagAt codec start second x).isSome := by
  induction first generalizing start second with
  | nil =>
      cases second with
      | nil => rfl
      | cons block rest => simp at h
  | cons block rest ih =>
      cases second with
      | nil => simp at h
      | cons other others =>
          obtain ⟨hsize, hsizes⟩ : block.size = other.size ∧
              rest.map Block.size = others.map Block.size := by simpa using h
          simp only [tagAt, hsize]
          split
          · rfl
          · exact ih hsizes _

theorem wipe_paint (word : BitVec 32) (memory : Bytes) {start : Int}
    {first second : List Block} (hstart : 4 ∣ start)
    (h : first.map Block.size = second.map Block.size) :
    wipe word (paint codec memory start first) start first =
      wipe word memory start second := by
  apply Bytes.ext_aligned
  intro x hx
  rw [load_wipe codec word _ _ hstart hx, load_wipe codec word _ _ hstart hx,
    load_paint codec _ _ hstart hx]
  have hsome := tagAt_isSome_congr codec h start x
  cases hfirst : tagAt codec start first x <;>
    cases hsecond : tagAt codec start second x <;> simp_all

theorem paint_wipe_self {memory : Bytes} {start : Int} {blocks : List Block}
    (word : BitVec 32) (hstart : 4 ∣ start)
    (htiles : Tiles codec memory start blocks) :
    paint codec (wipe word memory start blocks) start blocks = memory := by
  apply Bytes.ext_aligned
  intro x hx
  rw [load_paint codec _ _ hstart hx, load_wipe codec word _ _ hstart hx]
  cases htag : tagAt codec start blocks x with
  | none => rfl
  | some tag => exact ((tiles_iff codec).mp htiles x tag htag).symm

theorem paint_wipe_outside (word : BitVec 32) (memory : Bytes) {start : Int}
    {old new : List Block} (hstart : 4 ∣ start) {x : Int}
    (hold : tagAt codec start old (x - x % 4) = none)
    (hnew : tagAt codec start new (x - x % 4) = none) :
    paint codec (wipe word memory start old) start new x = memory x := by
  have haligned : 4 ∣ x - x % 4 := by omega
  apply Bytes.eq_of_load_eq (?_ : Bytes.load _ (x - x % 4) = _) (by omega) (by omega)
  rw [load_paint codec _ _ hstart haligned,
    load_wipe codec word memory _ hstart haligned, hold, hnew]
  rfl

theorem paint_outside (memory : Bytes) {start : Int} {blocks : List Block}
    (hstart : 4 ∣ start) {x : Int}
    (h : tagAt codec start blocks (x - x % 4) = none) :
    paint codec memory start blocks x = memory x := by
  have haligned : 4 ∣ x - x % 4 := by omega
  apply Bytes.eq_of_load_eq (?_ : Bytes.load _ (x - x % 4) = _) (by omega) (by omega)
  rw [load_paint codec _ _ hstart haligned, h]
  rfl

end Tags

end RutgersOS.Memory
