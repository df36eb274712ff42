import Mathlib.Data.List.Nodup
import Mathlib.Logic.Function.Basic

namespace RutgersOS.Memory

/-! Allocated cells, each with a value and a pointer to another cell or NULL, and the
lists that they form. -/

structure Cells (Ptr : Type u) (α : Type v) where
  cell : Ptr → Option (α × Option Ptr)
  count : Nat

inductive Chain {Ptr : Type u} {α : Type v} (cell : Ptr → Option (α × Option Ptr)) :
    Option Ptr → List (Ptr × α) → Prop
  | nil : Chain cell none []
  | cons {p : Ptr} {x : α} {next : Option Ptr} {rest : List (Ptr × α)} :
      cell p = some (x, next) → Chain cell next rest → Chain cell (some p) ((p, x) :: rest)

namespace Chain

variable {Ptr : Type u} {α : Type v} {cell cell' : Ptr → Option (α × Option Ptr)}

theorem congr {head : Option Ptr} {list : List (Ptr × α)} (h : Chain cell head list)
    (hsame : ∀ p ∈ list.map Prod.fst, cell' p = cell p) : Chain cell' head list := by
  induction h with
  | nil => exact .nil
  | @cons p x next rest hcell _ ih =>
      rw [List.map_cons] at hsame
      exact .cons ((hsame p List.mem_cons_self).trans hcell)
        (ih fun q hq => hsame q (List.mem_cons_of_mem _ hq))

theorem update [DecidableEq Ptr] {head : Option Ptr} {list : List (Ptr × α)}
    (h : Chain cell head list) {p : Ptr} (hp : p ∉ list.map Prod.fst)
    (value : Option (α × Option Ptr)) : Chain (Function.update cell p value) head list :=
  h.congr fun _ hq => Function.update_of_ne (ne_of_mem_of_not_mem hq hp) _ _

theorem push [DecidableEq Ptr] {head : Option Ptr} {list : List (Ptr × α)}
    (h : Chain cell head list) {p : Ptr} (hp : p ∉ list.map Prod.fst) (x : α) :
    Chain (Function.update cell p (some (x, head))) (some p) ((p, x) :: list) :=
  .cons (Function.update_self _ _ _) (h.update hp _)

theorem head_eq_none {head : Option Ptr} (h : Chain cell head []) : head = none := by
  cases h
  rfl

theorem head_ne_none {head : Option Ptr} {front : List (Ptr × α)} {entry : Ptr × α}
    (h : Chain cell head (front ++ [entry])) : ∃ p, head = some p := by
  cases front with
  | nil =>
      cases h
      exact ⟨_, rfl⟩
  | cons first front =>
      cases h
      exact ⟨_, rfl⟩

theorem last {p : Ptr} {x : α} (front : List (Ptr × α)) : ∀ {head : Option Ptr},
    Chain cell head (front ++ [(p, x)]) → cell p = some (x, none) := by
  induction front with
  | nil =>
      intro head h
      cases h with
      | cons hcell hrest => rw [hcell, hrest.head_eq_none]
  | cons entry front ih =>
      intro head h
      cases h with
      | cons _ hrest => exact ih hrest

theorem cut [DecidableEq Ptr] {p q : Ptr} {x y : α} (front : List (Ptr × α)) :
    ∀ {head : Option Ptr}, Chain cell head (front ++ [(q, y), (p, x)]) →
      ((front ++ [(q, y)]).map Prod.fst).Nodup →
        Chain (Function.update cell q (some (y, none))) head (front ++ [(q, y)]) := by
  induction front with
  | nil =>
      intro head h _
      cases h with
      | cons hcell _ => exact .cons (Function.update_self _ _ _) .nil
  | cons entry front ih =>
      intro head h hdistinct
      rw [List.cons_append, List.map_cons, List.nodup_cons] at hdistinct
      cases h with
      | cons hcell hrest =>
          refine .cons ?_ (ih hrest hdistinct.2)
          rw [Function.update_of_ne, hcell]
          rintro rfl
          exact hdistinct.1 (by simp)

end Chain

structure Holds {Ptr : Type u} {α : Type v} (s : Cells Ptr α) (owned : List (Ptr × α)) :
    Prop where
  distinct : (owned.map Prod.fst).Nodup
  live : ∀ p, s.cell p ≠ none ↔ p ∈ owned.map Prod.fst
  value : ∀ p x, (p, x) ∈ owned → ∃ next, s.cell p = some (x, next)
  count : s.count = owned.length

namespace Cells

variable {Ptr : Type u} {α : Type v} [DecidableEq Ptr]

def allocate (s : Cells Ptr α) (p : Ptr) (x : α) (next : Option Ptr) : Cells Ptr α where
  cell := Function.update s.cell p (some (x, next))
  count := s.count + 1

/-- `none` where the cell is not allocated. -/
def link (s : Cells Ptr α) (p : Ptr) (next : Option Ptr) : Option (Cells Ptr α) :=
  (s.cell p).map fun old => { s with cell := Function.update s.cell p (some (old.1, next)) }

def write (s : Cells Ptr α) (p : Ptr) (x : α) : Option (Cells Ptr α) :=
  (s.cell p).map fun old => { s with cell := Function.update s.cell p (some (x, old.2)) }

def release (s : Cells Ptr α) (p : Ptr) : Option (Cells Ptr α) :=
  (s.cell p).map fun _ =>
    { cell := Function.update s.cell p none
      count := s.count - 1 }

end Cells

namespace Holds

variable {Ptr : Type u} {α : Type v} [DecidableEq Ptr] {s : Cells Ptr α}
  {owned owned' : List (Ptr × α)}

omit [DecidableEq Ptr] in
theorem perm (h : Holds s owned) (hperm : owned'.Perm owned) : Holds s owned' where
  distinct := (hperm.map Prod.fst).nodup_iff.mpr h.distinct
  live p := (h.live p).trans (hperm.map Prod.fst).mem_iff.symm
  value p x hmem := h.value p x (hperm.mem_iff.mp hmem)
  count := h.count.trans hperm.length_eq.symm

omit [DecidableEq Ptr] in
theorem ne_front {p q : Ptr} {x y : α} (h : Holds s ((p, x) :: owned))
    (hmem : (q, y) ∈ owned) : q ≠ p := by
  rintro rfl
  have hdistinct := h.distinct
  rw [List.map_cons, List.nodup_cons] at hdistinct
  exact hdistinct.1 (List.mem_map.mpr ⟨_, hmem, rfl⟩)

theorem allocate (h : Holds s owned) {p : Ptr} (hfree : s.cell p = none) (x : α)
    (next : Option Ptr) : Holds (s.allocate p x next) ((p, x) :: owned) where
  distinct := by
    rw [List.map_cons, List.nodup_cons, ← h.live]
    exact ⟨fun hlive => hlive hfree, h.distinct⟩
  live q := by
    rw [Cells.allocate, List.map_cons, List.mem_cons, ← h.live]
    rcases Classical.em (q = p) with rfl | hne
    · simp
    · simp [hne]
  value q y hmem := by
    rcases List.mem_cons.mp hmem with heq | hold
    · obtain ⟨rfl, rfl⟩ := Prod.mk.inj heq
      exact ⟨next, Function.update_self _ _ _⟩
    · obtain ⟨after, hafter⟩ := h.value q y hold
      refine ⟨after, (Function.update_of_ne ?_ _ _).trans hafter⟩
      rintro rfl
      rw [hfree] at hafter
      cases hafter
  count := congrArg (· + 1) h.count

theorem link (h : Holds s owned) {p : Ptr} {x : α} (hmem : (p, x) ∈ owned)
    (next : Option Ptr) :
    ∃ after, s.link p next = some after ∧
      after.cell = Function.update s.cell p (some (x, next)) ∧ Holds after owned := by
  obtain ⟨old, hold⟩ := h.value p x hmem
  refine ⟨{ s with cell := Function.update s.cell p (some (x, next)) }, ?_, rfl,
    h.distinct, fun q => ?_, fun q y hother => ?_, h.count⟩
  · rw [Cells.link, hold]
    rfl
  · rw [← h.live]
    rcases Classical.em (q = p) with rfl | hne
    · simp [hold]
    · simp [Function.update_of_ne hne]
  · obtain ⟨after, hafter⟩ := h.value q y hother
    rcases Classical.em (q = p) with rfl | hne
    · rw [hold] at hafter
      obtain ⟨rfl, -⟩ := Prod.mk.inj (Option.some.inj hafter)
      exact ⟨next, Function.update_self _ _ _⟩
    · exact ⟨after, (Function.update_of_ne hne _ _).trans hafter⟩

theorem write {p : Ptr} {x : α} (h : Holds s ((p, x) :: owned)) (y : α) :
    ∃ after next, s.write p y = some after ∧ s.cell p = some (x, next) ∧
      after.cell = Function.update s.cell p (some (y, next)) ∧
      Holds after ((p, y) :: owned) := by
  obtain ⟨next, hold⟩ := h.value p x List.mem_cons_self
  have hdistinct := h.distinct
  refine ⟨{ s with cell := Function.update s.cell p (some (y, next)) }, next, ?_, hold, rfl,
    hdistinct, fun q => ?_, fun q z hmem => ?_, h.count⟩
  · rw [Cells.write, hold]
    rfl
  · have hlive := h.live q
    rw [List.map_cons] at hlive ⊢
    rw [← hlive]
    rcases Classical.em (q = p) with rfl | hne
    · simp [hold]
    · simp [Function.update_of_ne hne]
  · rcases List.mem_cons.mp hmem with heq | hrest
    · obtain ⟨rfl, rfl⟩ := Prod.mk.inj heq
      exact ⟨next, Function.update_self _ _ _⟩
    · obtain ⟨after, hafter⟩ := h.value q z (List.mem_cons_of_mem _ hrest)
      exact ⟨after, (Function.update_of_ne (h.ne_front hrest) _ _).trans hafter⟩

theorem release {p : Ptr} {x : α} (h : Holds s ((p, x) :: owned)) :
    ∃ after, s.release p = some after ∧ after.cell = Function.update s.cell p none ∧
      Holds after owned := by
  obtain ⟨next, hold⟩ := h.value p x List.mem_cons_self
  have hdistinct := h.distinct
  rw [List.map_cons, List.nodup_cons] at hdistinct
  refine ⟨{ cell := Function.update s.cell p none, count := s.count - 1 }, ?_, rfl,
    hdistinct.2, fun q => ?_, fun q y hmem => ?_, ?_⟩
  · rw [Cells.release, hold]
    rfl
  · have hlive := h.live q
    rw [List.map_cons, List.mem_cons] at hlive
    rcases Classical.em (q = p) with rfl | hne
    · simp [hdistinct.1]
    · simp only [Function.update_of_ne hne, hlive, hne, false_or]
  · obtain ⟨after, hafter⟩ := h.value q y (List.mem_cons_of_mem _ hmem)
    exact ⟨after, (Function.update_of_ne (h.ne_front hmem) _ _).trans hafter⟩
  · rw [h.count]
    rfl

end Holds

end RutgersOS.Memory
