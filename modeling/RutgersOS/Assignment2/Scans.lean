import Mathlib.Data.Nat.Find
import RutgersOS.Assignment2.Blanks

namespace RutgersOS.Assignment2.Paging

open RutgersOS.Pthread

/-! `while (table[i] != 6969) { ... i++; }`, with the bodies that the loop has.  The
search of `seg_handler` is left where the entry is found. -/

inductive Loop
  | swapOut
  | swapIn
  | resume
  | release
  | search (offset : Nat)

def Loop.body (table : Nat) : Loop → Nat → Paging → Option Paging
  | .swapOut, i, s => s.rehome i (table + i)
  | .swapIn, i, s => s.bringIn some table i
  | .resume, i, s => s.bringIn (evict i) table i
  | .release, i, s => some (s.releasePage table i)
  | .search offset, i, s => if s.cells (table + i) = offset then none else some s

/-- The loop comes to read entry `i`. -/
inductive Reaches (loop : Loop) (table : Nat) (s : Paging) : Paging → Nat → Prop
  | start : Reaches loop table s s 0
  | round {mid next : Paging} {i : Nat} : Reaches loop table s mid i →
      mid.cells (table + i) ≠ unmapped → loop.body table i mid = some next →
        Reaches loop table s next (i + 1)

/-- The loop reads nothing beyond the table, ends at an unmapped entry and leaves the
last page to the code that follows it. -/
def StopsInside (s : Paging) (loop : Loop) (table : Nat) : Prop :=
  ∃ stop, stop ≤ lastPage ∧ ∀ mid i, Reaches loop table s mid i →
    i ≤ stop ∧ (mid.cells (table + i) = unmapped ↔ i = stop)

/-- Every loop over the table of every thread, also of the joined threads, which
`seg_handler` goes through too. -/
def ScansInside (s : Paging) : Prop :=
  ∀ t table, s.pageTables t = some table → ∀ loop, s.StopsInside loop table

def scan (loop : Loop) (table : Nat) (s : Paging) (i : Nat) : Nat → Option (Nat × Paging)
  | 0 => none
  | n + 1 =>
      if s.cells (table + i) = unmapped then some (i, s)
      else (loop.body table i s).bind fun next => scan loop table next (i + 1) n

theorem swapOutPages_eq_scan (table n : Nat) : ∀ (s : Paging) (i : Nat),
    swapOutPages table s i n = scan .swapOut table s i n := by
  induction n with
  | zero => exact fun _ _ => rfl
  | succ n ih =>
      intro s i
      rw [swapOutPages, scan]
      apply ite_congr rfl (fun _ => rfl)
      intro _
      exact congrArg _ (funext fun next => ih next (i + 1))

theorem bringInPages_eq_scan {loop : Loop} {evict : Nat → Paging → Option Paging}
    {table : Nat} (hbody : ∀ i s, loop.body table i s = s.bringIn (evict i) table i)
    (n : Nat) : ∀ (s : Paging) (i : Nat),
      bringInPages evict table s i n = (scan loop table s i n).map Prod.snd := by
  induction n with
  | zero => exact fun _ _ => rfl
  | succ n ih =>
      intro s i
      rw [bringInPages, scan]
      split
      · rfl
      · rw [hbody, Option.map_bind]
        exact congrArg _ (funext fun next => ih next (i + 1))

theorem releasePages_eq_scan (table n : Nat) : ∀ (s : Paging) (i : Nat),
    releasePages table s i n = (scan .release table s i n).map Prod.snd := by
  induction n with
  | zero => exact fun _ _ => rfl
  | succ n ih =>
      intro s i
      rw [releasePages, scan]
      split
      · rfl
      · exact ih _ (i + 1)

theorem scanEntries_ended_iff {table offset : Nat} (n : Nat) : ∀ {s : Paging} {i : Nat},
    scanEntries offset table s i n = some .ended ↔
      ∃ stop, scan (.search offset) table s i n = some (stop, s) := by
  induction n with
  | zero =>
      intro s i
      refine iff_of_false ?_ ?_
      · intro h
        cases h
      · rintro ⟨stop, h⟩
        cases h
  | succ n ih =>
      intro s i
      rw [scanEntries, scan]
      split
      · exact iff_of_true rfl ⟨i, rfl⟩
      · split
        · next hfound =>
            rw [Loop.body, if_pos hfound]
            refine iff_of_false ?_ ?_
            · intro h
              cases h
            · rintro ⟨stop, h⟩
              cases h
        · next hother =>
            rw [Loop.body, if_neg hother]
            exact ih

section Scan

variable {loop : Loop} {table : Nat} {s : Paging}

theorem scan_reaches (n : Nat) : ∀ {mid next : Paging} {i stop : Nat},
    Reaches loop table s mid i → scan loop table mid i n = some (stop, next) →
      Reaches loop table s next stop ∧ next.cells (table + stop) = unmapped := by
  induction n with
  | zero => exact fun _ => nofun
  | succ n ih =>
      intro mid next i stop hreach h
      rw [scan] at h
      split at h
      · next hblank =>
          obtain ⟨rfl, rfl⟩ := Prod.mk.inj (Option.some.inj h)
          exact ⟨hreach, hblank⟩
      · next hmapped =>
          obtain ⟨after, hbody, hrest⟩ := Option.bind_eq_some_iff.mp h
          exact ih (.round hreach hmapped hbody) hrest

theorem scan_fuel {stop : Nat} (hstop : ∀ mid i, Reaches loop table s mid i →
      i ≤ stop ∧ (mid.cells (table + i) = unmapped ↔ i = stop)) (n : Nat) :
    ∀ {m i : Nat} {mid : Paging}, Reaches loop table s mid i → stop < i + n → stop < i + m →
      scan loop table mid i n = scan loop table mid i m := by
  induction n with
  | zero =>
      intro m i mid hreach hn
      exact absurd (hstop mid i hreach).1 (Nat.not_le.mpr hn)
  | succ n ih =>
      intro m i mid hreach hn hm
      cases m with
      | zero => exact absurd (hstop mid i hreach).1 (Nat.not_le.mpr hm)
      | succ m =>
          rw [scan, scan]
          split
          · rfl
          · next hmapped =>
              cases hbody : loop.body table i mid with
              | none => rfl
              | some next =>
                  exact ih (.round hreach hmapped hbody) (by omega) (by omega)

/-- More rounds than a table has entries change nothing. -/
theorem StopsInside.fuel (h : s.StopsInside loop table) {n : Nat} (hn : memoryPages ≤ n) :
    scan loop table s 0 n = scan loop table s 0 memoryPages := by
  obtain ⟨stop, hlast, hstop⟩ := h
  have hlt := Nat.lt_of_le_of_lt hlast lastPage_lt
  exact scan_fuel hstop n .start (by omega) (by omega)

end Scan

theorem Loop.body_keeps {loop : Loop} {table i : Nat} {s next : Paging}
    (hi : i < memoryPages) (hmapped : s.cells (table + i) ≠ unmapped)
    (h : loop.body table i s = some next) : Rewrites s next ∧ Keeps s next := by
  cases loop with
  | swapOut => exact ⟨rehome_rewrites h, rehome_keeps hmapped h⟩
  | swapIn =>
      refine ⟨?_, bringIn_keeps (stays_keeps s) hi hmapped h⟩
      exact bringIn_rewrites (fun mid heq => (stays_keeps s mid heq).1) hi h
  | resume =>
      refine ⟨?_, bringIn_keeps (fun _ => evict_keeps hi) hi hmapped h⟩
      exact bringIn_rewrites (fun mid heq => (evict_keeps hi heq).1) hi h
  | release =>
      obtain rfl := Option.some.inj h
      obtain ⟨htables, -⟩ := releasePage_same s table i
      have hmarks := MarksFrames.of_unmarked (releasePage_unmarked s table i)
      exact ⟨.of_sameTables htables, .of_cells htables.cells hmarks⟩
  | search offset =>
      rw [Loop.body] at h
      split at h
      · cases h
      · exact stays_keeps s next h

theorem stopsInside {s : Paging} {table stop : Nat} (loop : Loop) (hlast : stop ≤ lastPage)
    (hmapped : ∀ k, k < stop → s.cells (table + k) ≠ unmapped)
    (hblank : s.cells (table + stop) = unmapped) : s.StopsInside loop table := by
  have hinside : ∀ mid i, Reaches loop table s mid i →
      i ≤ stop ∧ Rewrites s mid ∧ Keeps s mid := by
    intro mid i hreach
    induction hreach with
    | start => exact ⟨Nat.zero_le stop, .refl s, .refl s⟩
    | @round mid next i hreach hentry hbody ih =>
        obtain ⟨hle, hrewrites, hkeeps⟩ := ih
        have hne : i ≠ stop := by
          rintro rfl
          exact hentry (hkeeps.blank _ hblank)
        have hi : i < memoryPages :=
          Nat.lt_of_le_of_lt (Nat.le_trans hle hlast) lastPage_lt
        obtain ⟨hrewrites', hkeeps'⟩ := Loop.body_keeps hi hentry hbody
        exact ⟨by omega, hrewrites.trans hrewrites', hkeeps.trans hkeeps'⟩
  refine ⟨stop, hlast, ?_⟩
  intro mid i hreach
  obtain ⟨hle, hrewrites, hkeeps⟩ := hinside mid i hreach
  refine ⟨hle, ?_⟩
  constructor
  · intro hend
    rcases Nat.lt_or_eq_of_le hle with hlt | heq
    · exact absurd (hrewrites.blank hend) (hmapped i hlt)
    · exact heq
  · rintro rfl
    exact hkeeps.blank _ hblank

/-- A table that is mapped throughout is read beyond its end. -/
theorem reaches_full {s : Paging} {table : Nat}
    (hmapped : ∀ k, k ≤ lastPage → s.cells (table + k) ≠ unmapped) (n : Nat) :
    n ≤ memoryPages → ∃ mid, Reaches .release table s mid n ∧ mid.cells = s.cells := by
  have hpages : memoryPages = lastPage + 1 := rfl
  induction n with
  | zero => exact fun _ => ⟨s, .start, rfl⟩
  | succ n ih =>
      intro hn
      obtain ⟨mid, hreach, hcells⟩ := ih (by omega)
      obtain ⟨htables, -⟩ := releasePage_same mid table n
      refine ⟨mid.releasePage table n, ?_, htables.cells.trans hcells⟩
      apply hreach.round
      · rw [hcells]
        exact hmapped n (by omega)
      · rfl

def Ended (s : Paging) (table : Nat) : Prop :=
  ∃ k, k ≤ lastPage ∧ s.cells (table + k) = unmapped

theorem stopsInside_iff {s : Paging} {table : Nat} :
    (∀ loop, s.StopsInside loop table) ↔ s.Ended table := by
  constructor
  · intro hstops
    obtain ⟨stop, hlast, hstop⟩ := hstops .release
    apply Classical.not_not.mp
    intro hnone
    obtain ⟨mid, hreach, -⟩ := reaches_full
      (fun k hk hblank => hnone ⟨k, hk, hblank⟩) memoryPages (Nat.le_refl _)
    have hpages : memoryPages = lastPage + 1 := rfl
    have hle := (hstop mid memoryPages hreach).1
    omega
  · intro hended loop
    have hsome : ∃ k, s.cells (table + k) = unmapped := hended.imp fun _ hk => hk.2
    obtain ⟨k, hk, hblank⟩ := hended
    apply stopsInside loop _ (fun _ hlt => Nat.find_min hsome hlt) (Nat.find_spec hsome)
    exact Nat.le_trans (Nat.find_min' hsome hblank) hk

theorem scansInside_iff {s : Paging} :
    s.ScansInside ↔ ∀ t table, s.pageTables t = some table → s.Ended table := by
  apply forall_congr'
  intro t
  apply forall_congr'
  intro table
  exact imp_congr_right fun _ => stopsInside_iff

end RutgersOS.Assignment2.Paging
