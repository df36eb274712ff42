import Mathlib.Data.List.Chain

namespace RutgersOS.Memory

structure Extent where
  start : Int
  length : Int

namespace Extent

def limit (extent : Extent) : Int :=
  extent.start + extent.length

instance : Membership Int Extent where
  mem extent x := extent.start ≤ x ∧ x < extent.limit

theorem mem_iff {extent : Extent} {x : Int} :
    x ∈ extent ↔ extent.start ≤ x ∧ x < extent.start + extent.length :=
  Iff.rfl

def Follows (first second : Extent) : Prop :=
  first.limit = second.start

def Disjoint (first second : Extent) : Prop :=
  ∀ x ∈ first, x ∉ second

theorem Follows.limit_le {first : Extent} {rest : List Extent}
    (h : (first :: rest).IsChain Follows)
    (hlength : ∀ extent ∈ rest, 0 ≤ extent.length) :
    ∀ extent ∈ rest, first.limit ≤ extent.start := by
  induction rest generalizing first with
  | nil =>
      intro extent hextent
      cases hextent
  | cons second rest ih =>
      have hchain := List.isChain_cons_cons.mp h
      have hstart : first.limit = second.start := hchain.1
      have hsecond : 0 ≤ second.length := hlength second List.mem_cons_self
      have hlater := ih hchain.2 fun extent hextent =>
        hlength extent (List.mem_cons_of_mem _ hextent)
      intro extent hextent
      cases List.mem_cons.mp hextent with
      | inl heq =>
          rw [heq]
          exact Int.le_of_eq hstart
      | inr hmem =>
          calc first.limit = second.start := hstart
            _ ≤ second.limit := by rw [limit]; omega
            _ ≤ extent.start := hlater extent hmem

theorem Follows.disjoint {extents : List Extent}
    (h : extents.IsChain Follows)
    (hlength : ∀ extent ∈ extents, 0 ≤ extent.length) :
    extents.Pairwise Disjoint := by
  induction extents with
  | nil => exact List.Pairwise.nil
  | cons first rest ih =>
      have hrest : ∀ extent ∈ rest, 0 ≤ extent.length := fun extent hextent =>
        hlength extent (List.mem_cons_of_mem _ hextent)
      apply List.Pairwise.cons
      · intro extent hextent x hx hx'
        have hle := Follows.limit_le h hrest extent hextent
        exact absurd (Int.lt_of_lt_of_le hx.2 hle) (Int.not_lt.mpr hx'.1)
      · exact ih h.tail hrest

end Extent

end RutgersOS.Memory
