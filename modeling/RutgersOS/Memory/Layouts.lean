import RutgersOS.Memory.Payloads

namespace RutgersOS.Memory

section

variable {start : Int} {block other : Block} {rest others : List Block}
  (htotal : total (block :: rest) = total (other :: others))
  (hpayloads : ∀ p, allocatedAt start (block :: rest) p =
    allocatedAt start (other :: others) p)

include htotal hpayloads

theorem free_size_le (hchain : NoAdjacentFree (block :: rest))
    (hfree : block.allocated = false) (hother : other.allocated = false) :
    other.size ≤ block.size := by
  refine Nat.le_of_not_lt fun hlt => ?_
  cases rest with
  | nil =>
      simp only [total_cons, total_nil] at htotal
      omega
  | cons next rest =>
      have hnext := hchain.closed_of_cons hfree next rfl
      have hp := hpayloads (start + block.size + 4)
      rw [allocatedAt_free hfree, allocatedAt_free hother, allocatedAt,
        if_pos ⟨rfl, hnext⟩] at hp
      have hrange := allocatedAt_range hp.symm
      omega

omit htotal in
theorem front_of_allocated (halloc : block.allocated = true) :
    other.allocated = true ∧ other.size = block.size := by
  have hmin := other.minimal
  have hp := hpayloads (start + 4)
  rw [allocatedAt, if_pos ⟨rfl, halloc⟩] at hp
  cases hother : other.allocated with
  | true =>
      rw [allocatedAt, if_pos ⟨rfl, hother⟩] at hp
      exact ⟨rfl, (Option.some.inj hp).symm⟩
  | false =>
      rw [allocatedAt_free hother] at hp
      have hrange := allocatedAt_range hp.symm
      omega

theorem front_eq (hchain : NoAdjacentFree (block :: rest))
    (hchain' : NoAdjacentFree (other :: others)) : block = other := by
  cases halloc : block.allocated with
  | true =>
      obtain ⟨hother, hsize⟩ := front_of_allocated hpayloads halloc
      exact Block.ext hsize.symm (halloc.trans hother.symm)
  | false =>
      cases hother : other.allocated with
      | true =>
          obtain ⟨htrue, -⟩ := front_of_allocated (fun p => (hpayloads p).symm) hother
          rw [halloc] at htrue
          cases htrue
      | false =>
          apply Block.ext
          · exact Nat.le_antisymm
              (free_size_le htotal.symm (fun p => (hpayloads p).symm) hchain' hother halloc)
              (free_size_le htotal hpayloads hchain halloc hother)
          · exact halloc.trans hother.symm

end

theorem allocatedAt_tail {start : Int} {block : Block} {rest others : List Block}
    (h : ∀ p, allocatedAt start (block :: rest) p = allocatedAt start (block :: others) p)
    (p : Int) :
    allocatedAt (start + block.size) rest p = allocatedAt (start + block.size) others p := by
  have hmin := block.minimal
  rcases Classical.em (p = start + 4) with rfl | hne
  · have hnone : ∀ blocks, allocatedAt (start + block.size) blocks (start + 4) = none := by
      intro blocks
      cases hp : allocatedAt (start + block.size) blocks (start + 4) with
      | none => rfl
      | some size =>
          have hrange := allocatedAt_range hp
          omega
    rw [hnone, hnone]
  · have hp := h p
    rwa [allocatedAt, if_neg fun hcase => hne hcase.1, allocatedAt,
      if_neg fun hcase => hne hcase.1] at hp

theorem NoAdjacentFree.eq_of_payloads {first second : List Block}
    (hfirst : NoAdjacentFree first) (hsecond : NoAdjacentFree second)
    (htotal : total first = total second) {start : Int}
    (hpayloads : ∀ p, allocatedAt start first p = allocatedAt start second p) :
    first = second := by
  induction first generalizing second start with
  | nil =>
      cases second with
      | nil => rfl
      | cons other others =>
          have hmin := other.minimal
          simp only [total_nil, total_cons] at htotal
          omega
  | cons block rest ih =>
      cases second with
      | nil =>
          have hmin := block.minimal
          simp only [total_nil, total_cons] at htotal
          omega
      | cons other others =>
          obtain rfl := front_eq htotal hpayloads hfirst hsecond
          have hrest : total rest = total others := by
            simpa only [total_cons, Nat.add_left_cancel_iff] using htotal
          rw [ih (List.isChain_cons.mp hfirst).2 (List.isChain_cons.mp hsecond).2 hrest
            (allocatedAt_tail hpayloads)]

end RutgersOS.Memory
