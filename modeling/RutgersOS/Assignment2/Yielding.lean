import RutgersOS.Assignment2.Calls

namespace RutgersOS.Assignment2.Paging

open RutgersOS.Memory

/-- The tables agree with each other, and the running thread is in place. -/
structure Owned (s : Paging) : Prop where
  framed : Framed s.place s.masterTable (fun _ => False)
  inPlace : ∀ c, s.scheduler.current = some c → ∀ q frame,
    s.place (c, q) = some frame → frame = q

/-- What the branch needs to move no page over another one. -/
def SwitchSafe (s : Paging) : Switch → Prop
  | .stay => True
  | .resume u => ∃ stop, s.Resumable u stop s.scheduler.threadIDS
  | .swap t u => ∃ stop stop', s.Swappable t u stop stop' ∧
      (landing s.masterTable (stop + 1)).length = stop + 1

/-- What it needs to move no page through the swap file after that was closed. -/
def SwitchFiled (s : Paging) : Switch → Prop
  | .stay => True
  | .resume u => s.Within u
  | .swap t u =>
      (∀ stop, s.EndsAt t stop → ∀ frame ∈ landing s.masterTable (stop + 1),
        frame < memoryPages ∨ s.fileOpen = true) ∧
      ∀ q frame, s.place (u, q) = some frame → frame < memoryPages ∨ s.fileOpen = true

def YieldSafe (s : Paging) : Prop :=
  ∀ scheduler switch, s.scheduler.myPthreadYield = some (scheduler, switch) →
    SwitchSafe { s with scheduler := scheduler } switch

def YieldFiled (s : Paging) : Prop :=
  ∀ scheduler switch, s.scheduler.myPthreadYield = some (scheduler, switch) →
    SwitchFiled { s with scheduler := scheduler } switch

theorem switchFiled_of_open {s : Paging} (h : s.fileOpen = true) (switch : Switch) :
    s.SwitchFiled switch := by
  cases switch with
  | stay => trivial
  | resume u => exact ⟨fun _ _ _ => Or.inr h, fun _ _ => Or.inr h⟩
  | swap t u => exact ⟨fun _ _ _ _ => Or.inr h, fun _ _ _ => Or.inr h⟩

theorem yieldFiled_of_open {s : Paging} (h : s.fileOpen = true) : s.YieldFiled :=
  fun scheduler switch _ =>
    switchFiled_of_open (s := { s with scheduler := scheduler }) h switch

theorem logicalMemory_congr {s mid : Paging} (hplace : mid.place = s.place)
    (hcontent : mid.content = s.content) : mid.logicalMemory = s.logicalMemory := by
  rw [logicalMemory, logicalMemory, hplace, hcontent]

section Branches

variable {s : Paging} (htabled : s.Tabled)
  (hframed : Framed s.place s.masterTable (fun _ => False))

include htabled hframed

theorem resume_switch {u : Nat} (halive : s.scheduler.Alive u)
    (hsafe : s.SwitchSafe (.resume u)) :
    ∃ next, s.switchPages (.resume u) = some next ∧ Switched s next u ∧
      (s.SwitchFiled (.resume u) → next.logicalMemory = s.logicalMemory) := by
  obtain ⟨stop, hresumable⟩ := hsafe
  obtain ⟨table, htable, hslot⟩ := htabled.table halive
  obtain ⟨next, hnext, hswitched, hlogical⟩ := resume_spec hresumable htabled.slots
    htabled.count (fun _ _ => htabled.lt) htabled.apart htabled.ranged htable hframed
    (htabled.placeLast halive)
  refine ⟨next, ?_, hswitched, hlogical⟩
  rw [switchPages, hslot]
  exact hnext

theorem swap_switch {t u : Nat} (hgone : s.scheduler.Alive t)
    (halive : s.scheduler.Alive u)
    (hplaced : ∀ q frame, s.place (t, q) = some frame → frame = q)
    (hsafe : s.SwitchSafe (.swap t u)) :
    ∃ next, s.switchPages (.swap t u) = some next ∧ Switched s next u ∧
      (s.SwitchFiled (.swap t u) → next.logicalMemory = s.logicalMemory) := by
  obtain ⟨stop, stop', hswappable, henough⟩ := hsafe
  obtain ⟨table, htable, hslot⟩ := htabled.table hgone
  obtain ⟨table', htable', hslot'⟩ := htabled.table halive
  obtain ⟨next, hnext, hswitched, hlogical⟩ := swap_spec hswappable henough hplaced
    hframed htabled.apart htabled.ranged htable htable' (htabled.placeLast hgone)
    (htabled.placeLast halive)
  refine ⟨next, ?_, hswitched, ?_⟩
  · rw [switchPages, hslot, hslot']
    exact hnext
  · rintro ⟨hout, hin⟩
    exact hlogical (hout stop hswappable.ends) hin

end Branches

structure Yielded (s next : Paging) : Prop where
  tabled : next.Tabled
  steady : next.scheduler.Steady
  owned : next.Owned
  table : next.tableOf = s.tableOf
  fileOpen : next.fileOpen = s.fileOpen
  logicalMemory : s.YieldFiled → next.logicalMemory = s.logicalMemory

theorem Switched.yielded {s next : Paging} {scheduler : Scheduler} {switch : Switch} {u : Nat}
    (hyield : s.scheduler.myPthreadYield = some (scheduler, switch))
    (hsame : Rescheduled s { s with scheduler := scheduler }) (hsteady : scheduler.Steady)
    (htabled : s.Tabled) (hcurrent : scheduler.current = some u)
    (h : Switched { s with scheduler := scheduler } next u)
    (hlogical : SwitchFiled { s with scheduler := scheduler } switch →
      next.logicalMemory = logicalMemory { s with scheduler := scheduler }) :
    Yielded s next where
  tabled := (hsame.tabled htabled).rewrites h.rewrites
  steady := by
    rw [h.rewrites.scheduler]
    exact hsteady
  owned := by
    refine ⟨h.framed, ?_⟩
    intro c hc
    rw [h.rewrites.scheduler] at hc
    obtain rfl := Option.some.inj (hcurrent.symm.trans hc)
    exact h.inPlace
  table := h.rewrites.tableOf.trans hsame.table
  fileOpen := h.rewrites.fileOpen
  logicalMemory hfiled :=
    (hlogical (hfiled scheduler switch hyield)).trans
      (logicalMemory_congr hsame.place hsame.content)

theorem yield_spec {s : Paging} (hpending : s.scheduler.Pending) (htabled : s.Tabled)
    (howned : s.Owned) (hsafe : s.YieldSafe) :
    ∃ next, s.myPthreadYield = some next ∧ Yielded s next := by
  obtain ⟨scheduler, switch, hyield, hyields, hsteady⟩ := hpending.yields
  have hsame := rescheduled_threads hyields.threads hyields.threadIDS
  have hmid := hsame.tabled htabled
  have hframed := hsame.place ▸ howned.framed
  have hsafe' := hsafe scheduler switch hyield
  have hpages : ∀ next,
      switchPages { s with scheduler := scheduler } switch = some next →
        s.myPthreadYield = some next := by
    intro next hnext
    rw [myPthreadYield, hyield]
    exact hnext
  cases hyields.hands with
  | stay hcurrent =>
      refine ⟨{ s with scheduler := scheduler }, hpages _ rfl,
        { tabled := hmid
          steady := hsteady
          owned := ⟨hframed, ?_⟩
          table := hsame.table
          fileOpen := rfl
          logicalMemory := fun _ => logicalMemory_congr hsame.place hsame.content }⟩
      rw [hcurrent, hsame.place]
      exact howned.inPlace
  | @resume u _ hnext halive =>
      obtain ⟨next, hresume, hswitched, hlogical⟩ := resume_switch hmid hframed
        ((hsame.alive u).mpr halive) hsafe'
      exact ⟨next, hpages next hresume,
        hswitched.yielded hyield hsame hsteady htabled hnext hlogical⟩
  | @swap t u hcurrent hgone hnext halive =>
      have hplaced : ∀ q frame,
          Paging.place { s with scheduler := scheduler } (t, q) = some frame → frame = q := by
        rw [hsame.place]
        exact howned.inPlace t hcurrent
      obtain ⟨next, hswap, hswitched, hlogical⟩ := swap_switch hmid hframed
        ((hsame.alive t).mpr hgone) ((hsame.alive u).mpr halive) hplaced hsafe'
      exact ⟨next, hpages next hswap,
        hswitched.yielded hyield hsame hsteady htabled hnext hlogical⟩

end RutgersOS.Assignment2.Paging
