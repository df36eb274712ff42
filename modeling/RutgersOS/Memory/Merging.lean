import Mathlib.Data.List.Chain
import RutgersOS.Memory.Blocks

namespace RutgersOS.Memory

def NoAdjacentFree (blocks : List Block) : Prop :=
  blocks.IsChain fun first second =>
    first.allocated = true ∨ second.allocated = true

def joinFront (block : Block) : List Block → List Block
  | [] => [block]
  | next :: rest =>
      if block.allocated = false ∧ next.allocated = false then
        block.merge next :: rest
      else block :: next :: rest

def mergeFree : List Block → List Block
  | [] => []
  | block :: rest => joinFront block (mergeFree rest)

/-- Mark free every block whose payload address is chosen. -/
def releaseWhere (chosen : Int → Bool) : Int → List Block → List Block
  | _, [] => []
  | start, block :: rest =>
      (if chosen (start + 4) then block.free else block) ::
        releaseWhere chosen (start + block.size) rest

@[simp] theorem mergeFree_nil : mergeFree [] = [] := rfl

@[simp] theorem mergeFree_cons (block : Block) (rest : List Block) :
    mergeFree (block :: rest) = joinFront block (mergeFree rest) := rfl

theorem joinFront_of_allocated {block : Block} (h : block.allocated = true)
    (rest : List Block) : joinFront block rest = block :: rest := by
  cases rest with
  | nil => rfl
  | cons next rest => simp [joinFront, h]

theorem joinFront_of_chain {block : Block} {rest : List Block}
    (h : NoAdjacentFree (block :: rest)) :
    joinFront block rest = block :: rest := by
  cases rest with
  | nil => rfl
  | cons next rest =>
      have hpair : block.allocated = true ∨ next.allocated = true :=
        (List.isChain_cons_cons.mp h).1
      rw [joinFront, if_neg]
      rintro ⟨hblock, hnext⟩
      simp [hblock, hnext] at hpair

@[simp] theorem total_joinFront (block : Block) (rest : List Block) :
    total (joinFront block rest) = block.size + total rest := by
  cases rest with
  | nil => rfl
  | cons next rest =>
      simp only [joinFront]
      split
      · simp [Nat.add_assoc]
      · rfl

@[simp] theorem total_mergeFree (blocks : List Block) :
    total (mergeFree blocks) = total blocks := by
  induction blocks with
  | nil => rfl
  | cons block rest ih => simp [ih]

@[simp] theorem total_releaseWhere (chosen : Int → Bool) (start : Int)
    (blocks : List Block) :
    total (releaseWhere chosen start blocks) = total blocks := by
  induction blocks generalizing start with
  | nil => rfl
  | cons block rest ih =>
      simp only [releaseWhere, total_cons, ih]
      split <;> rfl

theorem NoAdjacentFree.joinFront {block : Block} {rest : List Block}
    (h : NoAdjacentFree rest) : NoAdjacentFree (joinFront block rest) := by
  cases rest with
  | nil => exact List.IsChain.singleton _
  | cons next rest =>
      simp only [Memory.joinFront]
      split
      · rename_i hboth
        cases rest with
        | nil => exact List.IsChain.singleton _
        | cons after rest =>
            have htail := List.isChain_cons_cons.mp h
            refine List.isChain_cons_cons.mpr ⟨Or.inr ?_, htail.2⟩
            simpa [hboth.2] using htail.1
      · rename_i hnot
        refine List.isChain_cons_cons.mpr ⟨?_, h⟩
        cases hblock : block.allocated <;> cases hnext : next.allocated <;>
          simp_all

theorem mergeFree_chain (blocks : List Block) :
    NoAdjacentFree (mergeFree blocks) := by
  induction blocks with
  | nil => exact List.IsChain.nil
  | cons block rest ih => exact ih.joinFront

theorem mergeFree_of_chain {blocks : List Block} (h : NoAdjacentFree blocks) :
    mergeFree blocks = blocks := by
  induction blocks with
  | nil => rfl
  | cons block rest ih =>
      rw [mergeFree_cons, ih (List.IsChain.tail h)]
      exact joinFront_of_chain h

theorem mergeFree_append {left right : List Block}
    (hleft : NoAdjacentFree left)
    (hend : ∀ last ∈ left.getLast?, last.allocated = true) :
    mergeFree (left ++ right) = left ++ mergeFree right := by
  induction left with
  | nil => rfl
  | cons block rest ih =>
      cases rest with
      | nil =>
          have hblock : block.allocated = true := hend block (by simp)
          simp [joinFront_of_allocated hblock]
      | cons next rest =>
          have htail := List.isChain_cons_cons.mp hleft
          have hrest := ih htail.2 (fun last hlast => hend last (by simpa using hlast))
          rw [List.cons_append, mergeFree_cons, hrest]
          simp only [List.cons_append, joinFront]
          rw [if_neg]
          rintro ⟨hblock, hnext⟩
          simpa [hblock, hnext] using htail.1

theorem joinFront_merge {block next : Block} {rest : List Block}
    (hblock : block.allocated = false) (hnext : next.allocated = false) :
    joinFront block (next :: rest) = block.merge next :: rest := by
  rw [joinFront, if_pos ⟨hblock, hnext⟩]

theorem joinFront_closed {block : Block} {rest : List Block}
    (h : ∀ next ∈ rest.head?, next.allocated = true) :
    joinFront block rest = block :: rest := by
  cases rest with
  | nil => rfl
  | cons next rest =>
      have hnext : next.allocated = true := h next rfl
      simp [joinFront, hnext]

theorem NoAdjacentFree.closed_of_append {left : List Block} {last : Block}
    (h : NoAdjacentFree (left ++ [last])) (hlast : last.allocated = false) :
    ∀ block ∈ left.getLast?, block.allocated = true := by
  intro block hblock
  have hpair := (List.isChain_append.mp h).2.2 block hblock last rfl
  simpa [hlast] using hpair

theorem NoAdjacentFree.closed_of_cons {first : Block} {right : List Block}
    (h : NoAdjacentFree (first :: right)) (hfirst : first.allocated = false) :
    ∀ block ∈ right.head?, block.allocated = true := by
  intro block hblock
  have hpair := (List.isChain_cons.mp h).1 block hblock
  simpa [hfirst] using hpair

theorem joinFront_append {block next : Block} (rest right : List Block) :
    joinFront block (next :: rest ++ right) =
      joinFront block (next :: rest) ++ right := by
  simp only [List.cons_append, joinFront]
  split <;> rfl

theorem joinFront_joinFront {block next : Block}
    (hblock : block.allocated = false) (hnext : next.allocated = false)
    (rest : List Block) :
    joinFront block (joinFront next rest) =
      joinFront (block.merge next) rest := by
  cases rest with
  | nil => exact joinFront_merge hblock hnext
  | cons first rest =>
      cases hfirst : first.allocated with
      | true => simp [joinFront, hblock, hnext, hfirst]
      | false => simp [joinFront, hblock, hnext, hfirst, Block.merge_assoc]

theorem mergeFree_append_right (left right : List Block) :
    mergeFree (left ++ mergeFree right) = mergeFree (left ++ right) := by
  induction left with
  | nil => exact mergeFree_of_chain (mergeFree_chain right)
  | cons block rest ih => simp only [List.cons_append, mergeFree_cons, ih]

theorem mergeFree_append_left (left right : List Block) :
    mergeFree (mergeFree left ++ right) = mergeFree (left ++ right) := by
  induction left with
  | nil => rfl
  | cons block rest ih =>
      simp only [List.cons_append, mergeFree_cons]
      cases hmerged : mergeFree rest with
      | nil => simp [joinFront, ← ih, hmerged]
      | cons next others =>
          rw [← ih, hmerged]
          by_cases hboth : block.allocated = false ∧ next.allocated = false
          · rw [joinFront_merge hboth.1 hboth.2]
            simp only [List.cons_append, mergeFree_cons]
            exact (joinFront_joinFront hboth.1 hboth.2 _).symm
          · rw [show joinFront block (next :: others) =
              block :: next :: others from if_neg hboth]
            simp only [List.cons_append, mergeFree_cons]

theorem mergeFree_allocated {block : Block} (h : block.allocated = true)
    (left right : List Block) :
    mergeFree (left ++ block :: right) =
      mergeFree left ++ block :: mergeFree right := by
  induction left with
  | nil => simp [joinFront_of_allocated h]
  | cons first rest ih =>
      simp only [List.cons_append, mergeFree_cons, ih]
      cases hmerged : mergeFree rest with
      | nil => simp [joinFront, h]
      | cons next others => exact joinFront_append others _

theorem releaseWhere_append (chosen : Int → Bool) (start : Int)
    (left right : List Block) :
    releaseWhere chosen start (left ++ right) =
      releaseWhere chosen start left ++
        releaseWhere chosen (start + total left) right := by
  induction left generalizing start with
  | nil => simp [releaseWhere]
  | cons block rest ih =>
      simp only [List.cons_append, releaseWhere, total_cons, ih]
      rw [show start + (block.size : Int) + total rest =
        start + ((block.size + total rest : Nat) : Int) by omega]

theorem releaseWhere_congr {chosen other : Int → Bool} {start : Int}
    {blocks : List Block}
    (h : ∀ x, start + 4 ≤ x → x < start + total blocks → chosen x = other x) :
    releaseWhere chosen start blocks = releaseWhere other start blocks := by
  induction blocks generalizing start with
  | nil => rfl
  | cons block rest ih =>
      have hmin := block.minimal
      simp only [total_cons] at h
      simp only [releaseWhere]
      rw [h (start + 4) (by omega) (by omega), ih]
      intro x hlow hhigh
      exact h x (by omega) (by omega)

theorem releaseWhere_none (start : Int) (blocks : List Block) :
    releaseWhere (fun _ => false) start blocks = blocks := by
  induction blocks generalizing start with
  | nil => rfl
  | cons block rest ih => simp [releaseWhere, ih]

theorem releaseWhere_sizes (chosen : Int → Bool) (start : Int)
    (blocks : List Block) :
    (releaseWhere chosen start blocks).map Block.size =
      blocks.map Block.size := by
  induction blocks generalizing start with
  | nil => rfl
  | cons block rest ih =>
      simp only [releaseWhere, List.map_cons, ih]
      split <;> rfl

variable (codec : TagCodec)

theorem tagAt_joinFront {start x : Int} {block : Block} {rest : List Block}
    (h : (tagAt codec start (joinFront block rest) x).isSome) :
    (tagAt codec start (block :: rest) x).isSome := by
  cases rest with
  | nil => exact h
  | cons next rest =>
      by_cases hboth : block.allocated = false ∧ next.allocated = false
      · rw [joinFront_merge hboth.1 hboth.2] at h
        by_cases hblock : x = start ∨ x = start + block.size - 4
        · rw [tagAt_hit codec hblock]
          rfl
        · rw [tagAt_miss codec hblock]
          by_cases hnext : x = start + block.size ∨
              x = start + block.size + next.size - 4
          · rw [tagAt_hit codec hnext]
            rfl
          · rw [tagAt_miss codec hnext]
            rw [tagAt_miss codec (by rw [Block.merge_size]; omega),
              Block.merge_size, Int.natCast_add, ← Int.add_assoc] at h
            exact h
      · rwa [show joinFront block (next :: rest) = block :: next :: rest from
          if_neg hboth] at h

theorem tagAt_mergeFree {start x : Int} {blocks : List Block}
    (h : (tagAt codec start (mergeFree blocks) x).isSome) :
    (tagAt codec start blocks x).isSome := by
  induction blocks generalizing start with
  | nil => exact h
  | cons block rest ih =>
      have hcons := tagAt_joinFront codec h
      by_cases hblock : x = start ∨ x = start + block.size - 4
      · rw [tagAt_hit codec hblock]
        rfl
      · rw [tagAt_miss codec hblock] at hcons ⊢
        exact ih hcons

/-- A boundary of the list is a boundary of the merged list, or both of its
tag words have disappeared inside a merged block. -/
theorem mergeFree_boundary (start : Int) (left : List Block) {right : List Block}
    (hright : right ≠ []) :
    (∃ merged, mergeFree (left ++ right) = merged ++ mergeFree right ∧
        total merged = total left) ∨
      (left ≠ [] ∧
        tagAt codec start (mergeFree (left ++ right)) (start + total left) = none ∧
        tagAt codec start (mergeFree (left ++ right)) (start + total left - 4) =
          none) := by
  induction left generalizing start with
  | nil => exact Or.inl ⟨[], rfl, rfl⟩
  | cons block rest ih =>
      have hmin := block.minimal
      simp only [List.cons_append, mergeFree_cons, total_cons, Int.natCast_add]
      rcases ih (start + block.size) with ⟨merged, heq, htotal⟩ | ⟨hne, hseam⟩
      · rw [heq]
        cases merged with
        | nil =>
            have hzero : total rest = 0 := by simpa using htotal.symm
            rw [hzero, List.nil_append]
            cases hnext : mergeFree right with
            | nil =>
                have htotalRight := total_mergeFree right
                rw [hnext] at htotalRight
                cases right with
                | nil => exact absurd rfl hright
                | cons first others =>
                    have := first.minimal
                    simp at htotalRight
                    omega
            | cons next others =>
                have hminNext := next.minimal
                by_cases hboth : block.allocated = false ∧ next.allocated = false
                · right
                  rw [joinFront_merge hboth.1 hboth.2]
                  refine ⟨by simp, ?_, ?_⟩
                  · rw [tagAt_miss codec (by rw [Block.merge_size]; omega),
                      tagAt_below codec (by rw [Block.merge_size]; omega)]
                  · rw [tagAt_miss codec (by rw [Block.merge_size]; omega),
                      tagAt_below codec (by rw [Block.merge_size]; omega)]
                · left
                  exact ⟨[block], if_neg hboth, by simp⟩
        | cons first others =>
            left
            refine ⟨joinFront block (first :: others),
              joinFront_append others _, ?_⟩
            rw [total_joinFront, htotal]
      · right
        refine ⟨by simp, ?_⟩
        have hrest : 12 ≤ total rest := by
          have := length_le_total rest
          have := List.length_pos_iff.mpr hne
          omega
        have hshift : start + ((block.size : Int) + total rest) =
            start + block.size + total rest := by omega
        rw [hshift]
        -- a tag of the joined list would be a tag of the two parts
        have habsent : ∀ x, x ≠ start → x ≠ start + block.size - 4 →
            tagAt codec (start + block.size) (mergeFree (rest ++ right)) x = none →
            tagAt codec start (joinFront block (mergeFree (rest ++ right))) x =
              none := by
          intro x hfirst hlast hnone
          cases htag : tagAt codec start
              (joinFront block (mergeFree (rest ++ right))) x with
          | none => rfl
          | some word =>
              have hsome := tagAt_joinFront codec
                (Option.isSome_iff_exists.mpr ⟨word, htag⟩)
              rw [tagAt_miss codec (by omega), hnone] at hsome
              exact absurd hsome (by simp)
        exact ⟨habsent _ (by omega) (by omega) hseam.1,
          habsent _ (by omega) (by omega) hseam.2⟩

end RutgersOS.Memory
