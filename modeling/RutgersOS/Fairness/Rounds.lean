import Mathlib.Data.List.Basic

namespace RutgersOS.Fairness

/-! Threads that take turns in an arbitrary order.  A schedule is fair when it is cut
into rounds in each of which every thread has a turn. -/

variable {State : Type u} {Tid : Type v}

def run (step : State → Tid → Option State) (s : State) : List Tid → Option State
  | [] => some s
  | t :: schedule => (step s t).bind fun next => run step next schedule

theorem run_append (step : State → Tid → Option State) (first second : List Tid) :
    ∀ s : State, run step s (first ++ second) =
      (run step s first).bind fun mid => run step mid second := by
  induction first with
  | nil => exact fun _ => rfl
  | cons t first ih =>
      intro s
      rw [List.cons_append, run, run, Option.bind_assoc]
      exact congrArg _ (funext ih)

/-- No turn adds to the work that is left, a ready thread does some of it at its
turn and stays ready until then, and some thread is ready unless all is done. -/
structure Progress (step : State → Tid → Option State) (Good Done : State → Prop)
    (Ready : State → Tid → Prop) (work : State → Nat) : Prop where
  returns : ∀ s t, Good s → ∃ next, step s t = some next ∧ Good next ∧ work next ≤ work s
  works : ∀ s t next, Good s → Ready s t → step s t = some next → work next < work s
  waits : ∀ s t u next, Good s → Ready s t → u ≠ t → step s u = some next → Ready next t
  finished : ∀ s t next, Good s → Done s → step s t = some next → Done next
  ready : ∀ s, Good s → ¬ Done s → ∃ t, Ready s t

namespace Progress

variable {step : State → Tid → Option State} {Good Done : State → Prop}
  {Ready : State → Tid → Prop} {work : State → Nat}
  (h : Progress step Good Done Ready work)

include h

theorem run_returns (schedule : List Tid) : ∀ {s : State}, Good s →
    ∃ next, run step s schedule = some next ∧ Good next ∧ work next ≤ work s := by
  induction schedule with
  | nil => exact fun hgood => ⟨_, rfl, hgood, Nat.le_refl _⟩
  | cons t schedule ih =>
      intro s hgood
      obtain ⟨mid, hstep, hmid, hle⟩ := h.returns s t hgood
      obtain ⟨next, hrun, hnext, hle'⟩ := ih hmid
      refine ⟨next, ?_, hnext, Nat.le_trans hle' hle⟩
      rw [run, hstep]
      exact hrun

theorem run_finished (schedule : List Tid) : ∀ {s next : State}, Good s → Done s →
    run step s schedule = some next → Done next := by
  induction schedule with
  | nil =>
      intro s next _ hdone hrun
      obtain rfl := Option.some.inj hrun
      exact hdone
  | cons t schedule ih =>
      intro s next hgood hdone hrun
      obtain ⟨mid, hstep, hrest⟩ := Option.bind_eq_some_iff.mp hrun
      obtain ⟨other, hother, hmid, -⟩ := h.returns s t hgood
      obtain rfl := Option.some.inj (hother.symm.trans hstep)
      exact ih hmid (h.finished s t _ hgood hdone hstep) hrest

theorem round_works {t : Tid} (round : List Tid) : ∀ {s next : State}, Good s → Ready s t →
    t ∈ round → run step s round = some next → work next < work s := by
  induction round with
  | nil => exact fun _ _ hmem => absurd hmem List.not_mem_nil
  | cons u round ih =>
      intro s next hgood hready hmem hrun
      obtain ⟨mid, hstep, hrest⟩ := Option.bind_eq_some_iff.mp hrun
      obtain ⟨other, hother, hmid, hle⟩ := h.returns s u hgood
      obtain rfl := Option.some.inj (hother.symm.trans hstep)
      rcases Classical.em (u = t) with rfl | hne
      · obtain ⟨last, hlast, -, hle'⟩ := h.run_returns round hmid
        obtain rfl := Option.some.inj (hlast.symm.trans hrest)
        exact Nat.lt_of_le_of_lt hle' (h.works s u _ hgood hready hstep)
      · have hlater := (List.mem_cons.mp hmem).resolve_left fun heq => hne heq.symm
        exact Nat.lt_of_lt_of_le
          (ih hmid (h.waits s t u _ hgood hready hne hstep) hlater hrest) hle

/-- As many rounds as there is work lead to the end. -/
theorem rounds_done (rounds : List (List Tid)) : ∀ {s : State}, Good s →
    (∀ round ∈ rounds, ∀ t, t ∈ round) → work s ≤ rounds.length →
      ∃ next, run step s rounds.flatten = some next ∧ Good next ∧ Done next := by
  induction rounds with
  | nil =>
      intro s hgood _ hwork
      refine ⟨s, rfl, hgood, Classical.byContradiction fun hmore => ?_⟩
      obtain ⟨t, hready⟩ := h.ready s hgood hmore
      obtain ⟨next, hstep, -⟩ := h.returns s t hgood
      have hless := h.works s t next hgood hready hstep
      rw [List.length_nil] at hwork
      omega
  | cons round rounds ih =>
      intro s hgood hfair hwork
      obtain ⟨mid, hround, hmid, hle⟩ := h.run_returns round hgood
      have hrest : ∀ r ∈ rounds, ∀ t, t ∈ r :=
        fun r hr => hfair r (List.mem_cons_of_mem round hr)
      rw [List.flatten_cons, run_append, hround, Option.bind_some]
      rcases Classical.em (Done s) with hdone | hmore
      · obtain ⟨next, hnext, hgood', -⟩ := h.run_returns rounds.flatten hmid
        exact ⟨next, hnext, hgood',
          h.run_finished _ hmid (h.run_finished round hgood hdone hround) hnext⟩
      · obtain ⟨t, hready⟩ := h.ready s hgood hmore
        have hless :=
          h.round_works round hgood hready (hfair round List.mem_cons_self t) hround
        rw [List.length_cons] at hwork
        exact ih hmid hrest (by omega)

end Progress

end RutgersOS.Fairness
