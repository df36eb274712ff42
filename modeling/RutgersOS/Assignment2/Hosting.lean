import RutgersOS.Assignment2.ForkJoin
import RutgersOS.Assignment2.OsBalance

namespace RutgersOS.Assignment2

open RutgersOS.Memory RutgersOS.Pthread

def Process.call (p : Process) (c : Nat) : Option Scheduler.Op :=
  match p.code c with
  | .exit valuePtr => some (.exit valuePtr)
  | .yield _ => some .yield
  | .create stale _ _ => some (.create stale)
  | .join k _ => (p.handles c)[k]?.map .join

structure Hosted where
  process : Process
  library : Library

namespace Hosted

/-- The running thread makes its next call, which does not return where
`my_pthread_create` gets NULL or has no id left. -/
def step (contextSize : Nat) (p : Hosted) : Option Hosted := do
  let c ← p.process.scheduler.current
  let op ← p.process.call c
  let library ← p.library.step contextSize (.call op)
  let process ← p.process.step
  some ⟨process, library⟩

/-- A run of `n` calls.  In between the library writes its objects, and anything happens
outside the OS region. -/
inductive Run (contextSize : Nat) (first : Hosted) : Nat → Hosted → Prop
  | start : Run contextSize first 0 first
  | call {n : Nat} {p next : Hosted} : Run contextSize first n p →
      p.step contextSize = some next → Run contextSize first (n + 1) next
  | between {n : Nat} {p : Hosted} {library : Library} (event : Library.Event) :
      Run contextSize first n p → (∀ op, event ≠ .call op) →
        p.library.Allowed contextSize event → p.library.step contextSize event = some library →
          Run contextSize first n { p with library }

def Refused (contextSize : Nat) (p : Hosted) : Prop :=
  ∃ c stale child rest, p.process.scheduler.current = some c ∧
    p.process.code c = .create stale child rest ∧
      p.library.myPthreadCreate contextSize stale = none

end Hosted

variable {contextSize : Nat}

theorem Process.step_scheduler {p next : Process} {c : Nat} {op : Scheduler.Op}
    (hc : p.scheduler.current = some c) (hcall : p.call c = some op)
    (h : p.step = some next) : p.scheduler.step op = some next.scheduler := by
  obtain ⟨c', hc', h⟩ := Option.bind_eq_some_iff.mp h
  obtain rfl := Option.some.inj (hc.symm.trans hc')
  rw [Process.call] at hcall
  cases hcode : p.code c with
  | exit valuePtr =>
      rw [hcode] at hcall h
      obtain rfl := Option.some.inj hcall
      obtain ⟨s, hstep, hnext⟩ := Option.bind_eq_some_iff.mp h
      rw [hstep, ← Option.some.inj hnext]
  | yield rest =>
      rw [hcode] at hcall h
      obtain rfl := Option.some.inj hcall
      obtain ⟨s, hstep, hnext⟩ := Option.bind_eq_some_iff.mp h
      rw [hstep, ← Option.some.inj hnext]
  | create stale child rest =>
      rw [hcode] at hcall h
      obtain rfl := Option.some.inj hcall
      obtain ⟨s, hstep, hnext⟩ := Option.bind_eq_some_iff.mp h
      rw [hstep, ← Option.some.inj hnext]
  | join k rest =>
      rw [hcode] at hcall h
      obtain ⟨thread, hthread, rfl⟩ := Option.map_eq_some_iff.mp hcall
      obtain ⟨thread', hthread', h⟩ := Option.bind_eq_some_iff.mp h
      obtain rfl := Option.some.inj (hthread.symm.trans hthread')
      obtain ⟨⟨s, switch, value⟩, hjoin, hnext⟩ := Option.bind_eq_some_iff.mp h
      rw [Scheduler.step, hjoin]
      cases value with
      | none => rw [← Option.some.inj hnext]; rfl
      | some value => rw [← Option.some.inj hnext]; rfl

namespace Hosted

variable {returned : List Int} {p next : Hosted}

theorem Run.trans {first mid last : Hosted} {m n : Nat} (h : Run contextSize first m mid)
    (h' : Run contextSize mid n last) : Run contextSize first (m + n) last := by
  induction h' with
  | start => exact h
  | call _ hstep ih => exact .call ih hstep
  | between event _ hevent hallowed hstep ih => exact .between event ih hevent hallowed hstep

theorem step_cases (h : p.step contextSize = some next) : ∃ c op,
    p.process.scheduler.current = some c ∧ p.process.call c = some op ∧
      p.library.step contextSize (.call op) = some next.library ∧
        p.process.step = some next.process := by
  obtain ⟨c, hc, hrest⟩ := Option.bind_eq_some_iff.mp h
  obtain ⟨op, hcall, hrest⟩ := Option.bind_eq_some_iff.mp hrest
  obtain ⟨library, hlibrary, hrest⟩ := Option.bind_eq_some_iff.mp hrest
  obtain ⟨process, hprocess, hnext⟩ := Option.bind_eq_some_iff.mp hrest
  obtain rfl := Option.some.inj hnext
  exact ⟨c, op, hc, hcall, hlibrary, hprocess⟩

/-- What holds between two calls: the process is as in a run where each
`my_pthread_create` returns, and the region is accounted for. -/
structure Sound (contextSize : Nat) (returned : List Int) (p : Hosted) : Prop where
  good : ∃ value expected, p.process.Good value expected ∧ expected 0 = returned
  started : 0 < p.process.scheduler.threadIDS
  accounts : ∃ exited blocks, Library.Accounts contextSize exited p.library blocks
  scheduler : p.library.scheduler = p.process.scheduler

theorem Sound.calls (h : p.Sound contextSize returned) {c : Nat}
    (hc : p.process.scheduler.current = some c) :
    ∃ op, p.process.call c = some op ∧ (p.library.step contextSize (.call op) = none →
      p.Refused contextSize) ∧ ∀ library, p.library.step contextSize (.call op) = some library →
        p.process.scheduler.step op = some library.scheduler := by
  obtain ⟨exited, blocks, haccounts⟩ := h.accounts
  obtain ⟨value, expected, hgood, -⟩ := h.good
  have hc' : p.library.scheduler.current = some c := h.scheduler.symm ▸ hc
  have hreturns : ∀ {op library}, p.library.step contextSize (.call op) = some library →
      p.library.scheduler.step op = some library.scheduler →
        (p.library.step contextSize (.call op) = none → p.Refused contextSize) ∧
          ∀ other, p.library.step contextSize (.call op) = some other →
            p.process.scheduler.step op = some other.scheduler := by
    intro op library hstep hcall
    refine ⟨fun hnone => ?_, fun other hother => ?_⟩
    · rw [hstep] at hnone
      cases hnone
    · obtain rfl := Option.some.inj (hstep.symm.trans hother)
      rw [← h.scheduler]
      exact hcall
  rw [Process.call]
  cases hcode : p.process.code c with
  | exit valuePtr =>
      obtain ⟨library, hstep, hcall⟩ := haccounts.exit_returns hc' valuePtr
      exact ⟨_, rfl, hreturns hstep hcall⟩
  | yield rest =>
      obtain ⟨library, hstep, hcall⟩ := haccounts.yield_returns
      exact ⟨_, rfl, hreturns hstep hcall⟩
  | create stale child rest =>
      refine ⟨_, rfl, fun hnone => ⟨c, stale, child, rest, hc, hcode, hnone⟩, ?_⟩
      intro library hstep
      rw [← h.scheduler]
      exact Library.create_step hc' hstep
  | join k rest =>
      have hfine := hgood.fine c (hgood.current_mem hc)
      have hwell := hfine.wellFormed
      rw [hcode] at hwell
      obtain ⟨u, hget⟩ : ∃ u, (p.process.handles c)[k]? = some u :=
        ⟨_, List.getElem?_eq_getElem hwell.1⟩
      obtain ⟨hlater, -, halive⟩ := hfine.handles u (List.mem_of_getElem? hget)
      obtain ⟨library, hstep, hcall⟩ := haccounts.join_returns (by omega : u ≠ 0)
        (h.scheduler.symm ▸ halive : p.library.scheduler.Alive u)
      exact ⟨.join u, congrArg (Option.map Scheduler.Op.join) hget, hreturns hstep hcall⟩

theorem Sound.step (h : p.Sound contextSize returned) (hstep : p.step contextSize = some next) :
    next.Sound contextSize returned ∧ p.process.step = some next.process := by
  obtain ⟨c, op, hc, hcall, hlibrary, hprocess⟩ := step_cases hstep
  obtain ⟨other, hother, -, hcalls⟩ := h.calls hc
  obtain rfl := Option.some.inj (hcall.symm.trans hother)
  obtain ⟨exited, blocks, haccounts⟩ := h.accounts
  obtain ⟨value, expected, hgood, hexpected⟩ := h.good
  obtain ⟨after, hafter, hsteps⟩ := hgood.step hc
  obtain rfl := Option.some.inj (hafter.symm.trans hprocess)
  obtain ⟨value', expected', hgood', hsame⟩ := hsteps.good
  have hallowed : p.library.Allowed contextSize (.call op) := ⟨c, h.scheduler.symm ▸ hc⟩
  obtain ⟨exited', blocks', haccounts', -⟩ := haccounts.step hallowed hlibrary
  have hsched := Process.step_scheduler hc hcall hprocess
  refine ⟨⟨⟨value', expected', hgood', (hsame 0 h.started).trans hexpected⟩,
    Nat.lt_of_lt_of_le h.started hsteps.threadIDS, ⟨exited', blocks', haccounts'⟩, ?_⟩,
    hprocess⟩
  exact Option.some.inj ((hcalls _ hlibrary).symm.trans hsched)

/-- The run lemma: the process does not notice the region. -/
theorem Run.sound {first last : Hosted} {n : Nat} (hrun : Run contextSize first n last)
    (h : first.Sound contextSize returned) :
    last.Sound contextSize returned ∧ first.process.run n = some last.process := by
  induction hrun with
  | start => exact ⟨h, rfl⟩
  | call _ hstep ih =>
      obtain ⟨hmid, hbefore⟩ := ih
      obtain ⟨hnext, hprocess⟩ := hmid.step hstep
      refine ⟨hnext, ?_⟩
      rw [Process.run_add, hbefore, Option.bind_some, Process.run_one hprocess]
  | @between n mid library event _ hevent hallowed hstep ih =>
      obtain ⟨hmid, hbefore⟩ := ih
      obtain ⟨exited, blocks, haccounts⟩ := hmid.accounts
      obtain ⟨exited', blocks', haccounts', -⟩ := haccounts.step hallowed hstep
      exact ⟨⟨hmid.good, hmid.started, ⟨exited', blocks', haccounts'⟩,
        (Library.step_scheduler hevent hstep).trans hmid.scheduler⟩, hbefore⟩

end Hosted

def Program.Quiet : Program → Prop
  | .exit _ => True
  | .yield rest => rest.Quiet
  | .create _ _ _ => False
  | .join _ rest => rest.Quiet

theorem Process.step_quiet {p next : Process} (hquiet : ∀ t, (p.code t).Quiet)
    (h : p.step = some next) (t : Nat) : (next.code t).Quiet := by
  obtain ⟨c, hc, h⟩ := Option.bind_eq_some_iff.mp h
  have hold := hquiet c
  have hafter : ∀ rest : Program, rest.Quiet →
      (Function.update p.code c rest t).Quiet := by
    intro rest hrest
    rcases Classical.em (t = c) with rfl | hne
    · rw [Function.update_self]
      exact hrest
    · rw [Function.update_of_ne hne]
      exact hquiet t
  cases hcode : p.code c with
  | exit valuePtr =>
      rw [hcode] at h
      obtain ⟨s, -, hnext⟩ := Option.bind_eq_some_iff.mp h
      rw [← Option.some.inj hnext]
      exact hquiet t
  | yield rest =>
      rw [hcode] at h hold
      obtain ⟨s, -, hnext⟩ := Option.bind_eq_some_iff.mp h
      rw [← Option.some.inj hnext]
      exact hafter rest hold
  | create stale child rest =>
      rw [hcode] at hold
      exact hold.elim
  | join k rest =>
      rw [hcode] at h hold
      obtain ⟨thread, -, h⟩ := Option.bind_eq_some_iff.mp h
      obtain ⟨⟨s, switch, value⟩, -, hnext⟩ := Option.bind_eq_some_iff.mp h
      cases value with
      | none =>
          rw [← Option.some.inj hnext]
          exact hquiet t
      | some value =>
          rw [← Option.some.inj hnext]
          exact hafter rest hold

namespace Hosted

theorem Run.quiet {first last : Hosted} {n : Nat} (hrun : Run contextSize first n last)
    (h : ∀ t, (first.process.code t).Quiet) : ∀ t, (last.process.code t).Quiet := by
  induction hrun with
  | start => exact h
  | call _ hstep ih =>
      obtain ⟨_, _, -, -, -, hprocess⟩ := step_cases hstep
      exact Process.step_quiet ih hprocess
  | between _ _ _ _ _ ih => exact ih

end Hosted

end RutgersOS.Assignment2
