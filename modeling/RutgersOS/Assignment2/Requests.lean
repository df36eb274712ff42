import RutgersOS.Assignment2.Calls

namespace RutgersOS.Assignment2.Paging

inductive Requests : Paging → Paging → Prop
  | done (s : Paging) : Requests s s
  | load {s mid next : Paging} (address : Int) : s.step (.load address) = some mid →
      Requests mid next → Requests s next
  | setValue {s mid next : Paging} (p size allocation : Int) :
      s.step (.setValue p size allocation) = some mid → Requests mid next → Requests s next
  | mapPage {s mid next : Paging} (i : Nat) : s.step (.mapPage i) = some mid →
      Requests mid next → Requests s next

namespace Requests

theorem trans {first second third : Paging} (h : Requests first second)
    (h' : Requests second third) : Requests first third := by
  induction h with
  | done s => exact h'
  | load address hstep _ ih => exact .load address hstep (ih h')
  | setValue p size allocation hstep _ ih => exact .setValue p size allocation hstep (ih h')
  | mapPage i hstep _ ih => exact .mapPage i hstep (ih h')

theorem rewrites {s next : Paging} (h : Requests s next) : Rewrites s next := by
  induction h with
  | done s => exact .refl s
  | load address hstep _ ih =>
      exact (access_rewrites hstep (Or.inl ⟨address, rfl⟩)).trans ih
  | setValue p size allocation hstep _ ih =>
      exact (access_rewrites hstep (Or.inr (Or.inr ⟨p, size, allocation, rfl⟩))).trans ih
  | mapPage i hstep _ ih =>
      obtain ⟨_, _, -, -, hmap⟩ := mapEvent_cases hstep
      exact (mapPage_rewrites hmap).trans ih

theorem reachable {s next : Paging} {current : Nat} (h : Requests s next)
    (hcurrent : s.scheduler.current = some current) (hreachable : Reachable s) :
    Reachable next := by
  induction h with
  | done s => exact hreachable
  | load address hstep _ ih =>
      have hrewrites := access_rewrites hstep (Or.inl ⟨address, rfl⟩)
      exact ih (hrewrites.scheduler ▸ hcurrent)
        (.step (.load address) hreachable hcurrent trivial hstep)
  | setValue p size allocation hstep _ ih =>
      have hrewrites := access_rewrites hstep (Or.inr (Or.inr ⟨p, size, allocation, rfl⟩))
      exact ih (hrewrites.scheduler ▸ hcurrent)
        (.step (.setValue p size allocation) hreachable hcurrent trivial hstep)
  | mapPage i hstep _ ih =>
      obtain ⟨_, _, -, -, hmap⟩ := mapEvent_cases hstep
      exact ih ((mapPage_rewrites hmap).scheduler ▸ hcurrent)
        (.step (.mapPage i) hreachable hcurrent trivial hstep)

end Requests

theorem touchWord_requests {s next : Paging} {address : Int}
    (h : s.touchWord address = some next) : Requests s next := by
  obtain ⟨mid, hmid, hnext⟩ := Option.bind_eq_some_iff.mp h
  exact .load address hmid (.load (address + 3) hnext (.done next))

theorem setValue_requests {s next : Paging} {p size allocation : Int}
    (h : s.setValue p size allocation = some next) : Requests s next :=
  .setValue p size allocation h (.done next)

theorem getSize_requests {s next : Paging} {ptr size : Int}
    (h : s.getSize ptr = some (size, next)) : Requests s next := by
  obtain ⟨mid, hmid, heq⟩ := Option.bind_eq_some_iff.mp h
  obtain ⟨-, rfl⟩ := Prod.mk.inj (Option.some.inj heq)
  exact touchWord_requests hmid

theorem getAllocation_requests {s next : Paging} {ptr allocation : Int}
    (h : s.getAllocation ptr = some (allocation, next)) : Requests s next := by
  obtain ⟨mid, hmid, heq⟩ := Option.bind_eq_some_iff.mp h
  obtain ⟨-, rfl⟩ := Prod.mk.inj (Option.some.inj heq)
  exact touchWord_requests hmid

theorem getFooter_requests {s next : Paging} {p footer : Int}
    (h : s.getFooter p = some (footer, next)) : Requests s next := by
  obtain ⟨⟨size, mid⟩, hmid, heq⟩ := Option.bind_eq_some_iff.mp h
  obtain ⟨-, rfl⟩ := Prod.mk.inj (Option.some.inj heq)
  exact getSize_requests hmid

theorem findFit_requests {extendedSize : Int} (n : Nat) :
    ∀ {s next : Paging} {ptr : Int} {found : Option Int},
      findFit extendedSize s ptr n = some (found, next) → Requests s next := by
  induction n with
  | zero => exact nofun
  | succ n ih =>
      intro s next ptr found h
      obtain ⟨⟨blockSize, mid⟩, hsize, hrest⟩ := Option.bind_eq_some_iff.mp h
      obtain ⟨⟨allocBit, after⟩, halloc, hcases⟩ := Option.bind_eq_some_iff.mp hrest
      have hread := (getSize_requests hsize).trans (getAllocation_requests halloc)
      dsimp only at hcases
      split at hcases
      · obtain ⟨-, rfl⟩ := Prod.mk.inj (Option.some.inj hcases)
        exact hread
      · split at hcases
        · obtain ⟨-, rfl⟩ := Prod.mk.inj (Option.some.inj hcases)
          exact hread
        · exact hread.trans (ih hcases)

theorem splitBlock_requests {s next : Paging} {ptr extendedSize difference : Int}
    (h : s.splitBlock ptr extendedSize difference = some next) : Requests s next := by
  obtain ⟨⟨footer, s₁⟩, hfooter, h⟩ := Option.bind_eq_some_iff.mp h
  obtain ⟨s₂, hrest, h⟩ := Option.bind_eq_some_iff.mp h
  obtain ⟨s₃, hheader, h⟩ := Option.bind_eq_some_iff.mp h
  obtain ⟨s₄, hfooter', h⟩ := Option.bind_eq_some_iff.mp h
  exact (getFooter_requests hfooter).trans ((setValue_requests hrest).trans
    ((setValue_requests hheader).trans ((setValue_requests hfooter').trans
      (setValue_requests h))))

theorem occupyBlock_requests {s next : Paging} {ptr oldSize : Int}
    (h : s.occupyBlock ptr oldSize = some next) : Requests s next := by
  obtain ⟨s₁, hheader, h⟩ := Option.bind_eq_some_iff.mp h
  obtain ⟨⟨footer, s₂⟩, hfooter, h⟩ := Option.bind_eq_some_iff.mp h
  exact (setValue_requests hheader).trans
    ((getFooter_requests hfooter).trans (setValue_requests h))

theorem mapPages_requests {current currentTable : Nat} (n : Nat) :
    ∀ {s next : Paging} {i : Nat}, s.scheduler.current = some current →
      s.pageTables current = some currentTable →
        mapPages currentTable s i n = some next → Requests s next := by
  induction n with
  | zero =>
      intro s next i _ _ h
      obtain rfl := Option.some.inj h
      exact .done s
  | succ n ih =>
      intro s next i hcurrent htable h
      obtain ⟨mid, hmid, hrest⟩ := Option.bind_eq_some_iff.mp h
      have hrewrites := mapPage_rewrites hmid
      have hstep : s.step (.mapPage i) = some mid := by
        rw [step, hcurrent, Option.bind_eq_bind, Option.bind_some, htable,
          Option.bind_some]
        exact hmid
      exact .mapPage i hstep (ih (hrewrites.scheduler ▸ hcurrent)
        (hrewrites.pageTables ▸ htable) hrest)

theorem mapAllocated_requests {s next : Paging} {ptr : Int} {result : Option Int}
    (h : s.mapAllocated ptr = some (result, next)) : Requests s next := by
  obtain ⟨⟨footer, mid⟩, hfooter, h⟩ := Option.bind_eq_some_iff.mp h
  obtain ⟨after, hblock, heq⟩ := Option.bind_eq_some_iff.mp h
  obtain ⟨-, rfl⟩ := Prod.mk.inj (Option.some.inj heq)
  obtain ⟨current, hcurrent, hblock⟩ := Option.bind_eq_some_iff.mp hblock
  obtain ⟨currentTable, htable, hpages⟩ := Option.bind_eq_some_iff.mp hblock
  exact (getFooter_requests hfooter).trans (mapPages_requests _ hcurrent htable hpages)

theorem myallocate_requests {s next : Paging} {size fuel : Nat} {result : Option Int}
    (h : s.myallocate size fuel = some (result, next)) : Requests s next := by
  unfold myallocate at h
  split at h
  · obtain ⟨-, rfl⟩ := Prod.mk.inj (Option.some.inj h)
    exact .done s
  split at h
  · obtain ⟨-, rfl⟩ := Prod.mk.inj (Option.some.inj h)
    exact .done s
  obtain ⟨⟨found, s₁⟩, hfind, h⟩ := Option.bind_eq_some_iff.mp h
  have hsearched := findFit_requests fuel hfind
  cases found with
  | none =>
      obtain ⟨-, rfl⟩ := Prod.mk.inj (Option.some.inj h)
      exact hsearched
  | some ptr =>
      obtain ⟨⟨oldSize, s₂⟩, hsize, h⟩ := Option.bind_eq_some_iff.mp h
      have hread := hsearched.trans (getSize_requests hsize)
      dsimp only at h
      split at h
      · obtain ⟨s₃, hsplit, h⟩ := Option.bind_eq_some_iff.mp h
        exact hread.trans ((splitBlock_requests hsplit).trans (mapAllocated_requests h))
      · split at h
        · obtain ⟨s₃, hoccupy, h⟩ := Option.bind_eq_some_iff.mp h
          exact hread.trans ((occupyBlock_requests hoccupy).trans (mapAllocated_requests h))
        · obtain ⟨-, rfl⟩ := Prod.mk.inj (Option.some.inj h)
          exact hread

end RutgersOS.Assignment2.Paging
