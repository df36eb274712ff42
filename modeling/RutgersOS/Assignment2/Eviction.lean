import RutgersOS.Assignment2.Switching

namespace RutgersOS.Assignment2.Paging

open RutgersOS.Memory

/-! The searches for the owner of a frame.  They go through every table in
`pageTables`, also those of joined threads. -/

structure Slots (s : Paging) (count : Nat) : Prop where
  below : ∀ j, j < count → s.pageTables j ≠ none
  ended : s.pageTables count = none

def StaleFree (s : Paging) (frame : Nat) : Prop :=
  ∀ j table k, s.pageTables j = some table → k < memoryPages →
    s.cells (table + k) = frame → s.LiveCell (table + k)

theorem pageTables_of_tableOf {s : Paging} {t table : Nat}
    (h : s.tableOf t = some table) : s.pageTables t = some table := by
  unfold tableOf at h
  split at h
  · exact h
  · cases h

theorem Slots.congr {s next : Paging} {count : Nat} (h : s.Slots count)
    (hsame : next.pageTables = s.pageTables) : next.Slots count where
  below := by
    rw [hsame]
    exact h.below
  ended := by
    rw [hsame]
    exact h.ended

theorem place_of_liveCell {s : Paging} {cell frame : Nat} (h : s.LiveCell cell)
    (hcell : s.cells cell = frame) (hframe : frame ≠ unmapped) :
    ∃ t table q, s.tableOf t = some table ∧ q < memoryPages ∧ cell = table + q ∧
      s.place (t, q) = some frame := by
  obtain ⟨t, table, q, htable, hq, rfl⟩ := h
  exact ⟨t, table, q, htable, hq, rfl,
    place_eq_some.mpr ⟨table, htable, hq, hcell, hframe⟩⟩

theorem evictEntry_cases (frame table : Nat) (s : Paging) (n : Nat) : ∀ k,
    (∀ i, k ≤ i → i < k + n → s.cells (table + i) ≠ frame) ∧
        evictEntry frame table s k n = some s ∨
      ∃ i, k ≤ i ∧ i < k + n ∧ s.cells (table + i) = frame ∧
        evictEntry frame table s k n = s.rehome frame (table + i) := by
  induction n with
  | zero => exact fun k => Or.inl ⟨fun i hle hlt => absurd hlt (Nat.not_lt.mpr hle), rfl⟩
  | succ n ih =>
      intro k
      rw [evictEntry]
      split
      · next heq => exact Or.inr ⟨k, Nat.le_refl k, by omega, heq, rfl⟩
      · next hne =>
          rcases ih (k + 1) with ⟨hnone, hsame⟩ | ⟨i, hle, hlt, heq, hrehome⟩
          · refine Or.inl ⟨fun i hle hlt => ?_, hsame⟩
            rcases Nat.lt_or_eq_of_le hle with hmore | rfl
            · exact hnone i hmore (by omega)
            · exact hne
          · exact Or.inr ⟨i, by omega, by omega, heq, hrehome⟩

section Search

variable {s : Paging} {count frame : Nat} (hslots : s.Slots count)

include hslots

theorem evictFrom_absent
    (habsent : ∀ j table k, s.pageTables j = some table → k < memoryPages →
      s.cells (table + k) ≠ frame) (n : Nat) :
    ∀ {j : Nat}, j ≤ count → count < j + n → evictFrom frame s j n = some s := by
  induction n with
  | zero => exact fun hle hlt => absurd hlt (Nat.not_lt.mpr hle)
  | succ n ih =>
      intro j hle hlt
      rw [evictFrom]
      rcases Nat.lt_or_eq_of_le hle with hmore | rfl
      · obtain ⟨table, htable⟩ := Option.ne_none_iff_exists'.mp (hslots.below j hmore)
        rw [htable]
        have hsame : evictEntry frame table s 0 memoryPages = some s := by
          rcases evictEntry_cases frame table s memoryPages 0 with
            ⟨-, hsame⟩ | ⟨k, -, hk, heq, -⟩
          · exact hsame
          · exact absurd heq (habsent j table k htable (by omega))
        change (evictEntry frame table s 0 memoryPages).bind _ = _
        rw [hsame]
        exact ih hmore (by omega)
      · rw [hslots.ended]

theorem evictFrom_moves {cell target : Nat}
    (hunique : ∀ j table k, s.pageTables j = some table → k < memoryPages →
      s.cells (table + k) = frame → table + k = cell)
    (hfree : s.nextFreePage = some target) (hne : target ≠ frame) (n : Nat) :
    ∀ {j owner table k : Nat}, j ≤ owner → owner < count → count < j + n →
      s.pageTables owner = some table → k < memoryPages → s.cells (table + k) = frame →
      ∃ next, evictFrom frame s j n = some next ∧ s.rehome frame cell = some next := by
  induction n with
  | zero => omega
  | succ n ih =>
      intro j owner table k hle howner hlt htable hk hcell
      obtain ⟨other, hother⟩ := Option.ne_none_iff_exists'.mp
        (hslots.below j (Nat.lt_of_le_of_lt hle howner))
      rw [evictFrom, hother]
      change ∃ next, (evictEntry frame other s 0 memoryPages).bind _ = _ ∧ _
      rcases evictEntry_cases frame other s memoryPages 0 with
        ⟨hnone, hsame⟩ | ⟨i, -, hi, heq, hrehome⟩
      · rw [hsame]
        rcases Nat.lt_or_eq_of_le hle with hmore | rfl
        · exact ih hmore howner (by omega) htable hk hcell
        · obtain rfl := Option.some.inj (hother.symm.trans htable)
          exact absurd hcell (hnone k (Nat.zero_le k) (by omega))
      · -- the one entry that names the frame is moved, and no entry names it then
        have hi' : i < memoryPages := by omega
        obtain rfl := hunique j other i hother hi' heq
        obtain ⟨next, hnext, hrehomed⟩ := rehome_returns hfree frame (other + i)
        rw [hrehome, hnext]
        refine ⟨next, ?_, rfl⟩
        apply evictFrom_absent (hslots.congr hrehomed.pageTables)
        · intro j' table' k' htable' hk' hnamed
          rw [hrehomed.pageTables] at htable'
          rw [hrehomed.cells] at hnamed
          rcases Classical.em (table' + k' = other + i) with hsame | hdiffers
          · rw [hsame, Function.update_self] at hnamed
            exact hne hnamed
          · rw [Function.update_of_ne hdiffers] at hnamed
            exact hdiffers (hunique j' table' k' htable' hk' hnamed)
        · omega
        · omega

omit hslots in
/-- A search that ends has read past the last table. -/
theorem evictFrom_ends (n : Nat) : ∀ {s next : Paging} {j : Nat}, s.Slots count →
    j ≤ count → evictFrom frame s j n = some next → count < j + n := by
  induction n with
  | zero => exact fun _ _ => nofun
  | succ n ih =>
      intro s next j hslots hle h
      rcases Nat.lt_or_eq_of_le hle with hmore | rfl
      · obtain ⟨table, htable⟩ := Option.ne_none_iff_exists'.mp (hslots.below j hmore)
        rw [evictFrom, htable] at h
        obtain ⟨mid, hmid, hrest⟩ := Option.bind_eq_some_iff.mp h
        have hsame : mid.pageTables = s.pageTables := by
          rcases evictEntry_cases frame table s memoryPages 0 with
            ⟨-, heq⟩ | ⟨k, -, -, -, heq⟩
          · rw [Option.some.inj (hmid.symm.trans heq)]
          · obtain ⟨target, hrehomed⟩ := rehome_spec (heq.symm.trans hmid)
            exact hrehomed.pageTables
        have hlt := ih (hslots.congr hsame) hmore hrest
        omega
      · omega

theorem evictLastFrom_spec {owner table : Nat} (howner : s.pageTables owner = some table)
    (hlt : owner < count) (hcell : s.cells (table + lastPage) = lastPage) (n : Nat) :
    ∀ {j : Nat}, j ≤ owner → owner < j + n →
      ∃ i other, i ≤ owner ∧ s.pageTables i = some other ∧
        s.cells (other + lastPage) = lastPage ∧
        evictLastFrom s j n = s.rehome lastPage (other + lastPage) := by
  induction n with
  | zero => omega
  | succ n ih =>
      intro j hle hend
      obtain ⟨other, hother⟩ := Option.ne_none_iff_exists'.mp
        (hslots.below j (Nat.lt_of_le_of_lt hle hlt))
      rw [evictLastFrom, hother]
      rcases Classical.em (s.cells (other + lastPage) = lastPage) with heq | hne
      · exact ⟨j, other, hle, hother, heq, if_pos heq⟩
      · have hmore : j < owner := by
          refine Nat.lt_of_le_of_ne hle ?_
          rintro rfl
          obtain rfl := Option.some.inj (hother.symm.trans howner)
          exact hne hcell
        obtain ⟨i, found, hi, hfound, hnamed, heq⟩ := ih hmore (by omega)
        exact ⟨i, found, hi, hfound, hnamed, (if_neg hne).trans heq⟩

end Search

section Clearing

variable {s next : Paging} {i : Nat} (hapart : s.Apart)
  (hframed : Framed s.place s.masterTable (fun _ => False)) (hi : i < memoryPages)

include hapart hframed hi

theorem Rehomed.cleared {t table q frame : Nat} (u : Nat)
    (h : Rehomed s next i (table + q) frame) (htable : s.tableOf t = some table)
    (hq : q < memoryPages) (hcell : s.cells (table + q) = i) :
    Cleared True s next u i := by
  have hmoves := h.moves hapart hframed htable hq hcell
    (lt_unmapped (page_lt_total hi))
  refine
    { rewrites := h.rewrites
      outside := ?_
      vacant := (hmoves.vacant_iff hframed.separate i).mpr (Or.inl rfl)
      kept := ?_
      absent := ?_
      framed := ⟨_, h.framed hframed hmoves, fun f hf => hf.resolve_left id⟩
      within := ?_ }
  · intro cell hdead
    have hne : cell ≠ table + q := fun heq => hdead ⟨t, table, q, htable, hq, heq⟩
    rw [h.cells, Function.update_of_ne hne]
  · intro key f hkey hf
    rw [hmoves.kept key, hkey]
    rintro rfl
    exact hf trivial (Option.some.inj (hkey.symm.trans hmoves.source))
  · intro key hkey
    rw [hmoves.kept key, hkey]
    rintro rfl
    rw [hmoves.source] at hkey
    cases hkey
  · intro hwithin
    have hfile := hwithin.free frame h.free
    refine ⟨h.logicalMemory hframed.separate hmoves hi hfile, ?_⟩
    intro p f hplace
    rcases Classical.em ((u, p) = (t, q)) with heq | hne
    · rw [heq, hmoves.moved] at hplace
      obtain rfl := Option.some.inj hplace
      exact hfile
    · rw [hmoves.kept (u, p) hne] at hplace
      exact hwithin.pages p f hplace

variable {count : Nat} (hslots : s.Slots count)

omit hapart

include hslots

theorem evict_moves (hcount : count < maxThreads)
    (hlive : ∀ t table, s.tableOf t = some table → t < count)
    (hstale : s.StaleFree i) (hfree : s.nextFreePage ≠ none) {t q table : Nat}
    (htable : s.tableOf t = some table) (hq : q < memoryPages)
    (hcell : s.cells (table + q) = i) :
    ∃ next, evict i s = some next ∧ s.rehome i (table + q) = some next := by
  have hmapped : i ≠ unmapped := lt_unmapped (page_lt_total hi)
  have hplace : s.place (t, q) = some i :=
    place_eq_some.mpr ⟨table, htable, hq, hcell, hmapped⟩
  obtain ⟨target, htarget⟩ := Option.ne_none_iff_exists'.mp hfree
  have hne : target ≠ i := by
    rintro rfl
    exact (hframed.vacant (nextFreePage_spec htarget).2.1).1 (t, q) hplace
  have hunique : ∀ j other k, s.pageTables j = some other → k < memoryPages →
      s.cells (other + k) = i → other + k = table + q := by
    intro j other k hother hk hnamed
    obtain ⟨u, found, p, hfound, hp, heq, hsame⟩ :=
      place_of_liveCell (hstale j other k hother hk hnamed) hnamed hmapped
    obtain ⟨rfl, rfl⟩ := Prod.mk.inj (hframed.separate _ _ _ hsame hplace)
    rw [heq, Option.some.inj (hfound.symm.trans htable)]
  exact evictFrom_moves hslots hunique htarget hne maxThreads (Nat.zero_le t)
    (hlive t table htable) (by omega) (pageTables_of_tableOf htable) hq hcell

include hapart

theorem evict_clears (u : Nat) (hcount : count < maxThreads)
    (hlive : ∀ t table, s.tableOf t = some table → t < count)
    (hstale : s.StaleFree i) (hfree : s.nextFreePage ≠ none) :
    ∃ next, evict i s = some next ∧ Cleared True s next u i := by
  rcases Classical.em (Vacant s.place i) with hvacant | hheld
  · refine ⟨s, ?_, .of_vacant u hframed hvacant⟩
    apply evictFrom_absent hslots
    · intro j table k htable hk hcell
      obtain ⟨t, -, q, -, -, -, hplace⟩ := place_of_liveCell
        (hstale j table k htable hk hcell) hcell (lt_unmapped (page_lt_total hi))
      exact hvacant (t, q) hplace
    · exact Nat.zero_le count
    · omega
  · obtain ⟨⟨t, q⟩, hplace⟩ := exists_of_not_vacant hheld
    obtain ⟨table, htable, hq, hcell, -⟩ := place_eq_some.mp hplace
    obtain ⟨next, hevict, hrehome⟩ :=
      evict_moves hframed hi hslots hcount hlive hstale hfree htable hq hcell
    obtain ⟨target, hrehomed⟩ := rehome_spec hrehome
    exact ⟨next, hevict, hrehomed.cleared hapart hframed hi u htable hq hcell⟩

omit hi

theorem evictLast_clears (u : Nat) {owner : Nat} (hcount : count ≤ maxThreads)
    (hlive : ∀ t table, s.tableOf t = some table → t < count)
    (hheld : s.place (owner, lastPage) = some lastPage)
    (hstale : ∀ j table, j < owner → s.pageTables j = some table →
      s.cells (table + lastPage) = lastPage → s.LiveCell (table + lastPage))
    (hfree : s.nextFreePage ≠ none) :
    ∃ next, evictLast s = some next ∧ Cleared True s next u lastPage := by
  have hmapped : lastPage ≠ unmapped := lt_unmapped (page_lt_total lastPage_lt)
  obtain ⟨table, htable, -, hcell, -⟩ := place_eq_some.mp hheld
  have howner := hlive owner table htable
  obtain ⟨i, other, hi, hother, hnamed, heq⟩ := evictLastFrom_spec hslots
    (pageTables_of_tableOf htable) howner hcell maxThreads (Nat.zero_le owner) (by omega)
  obtain ⟨target, htarget⟩ := Option.ne_none_iff_exists'.mp hfree
  have hsame : other + lastPage = table + lastPage := by
    rcases Nat.lt_or_eq_of_le hi with hbefore | rfl
    · obtain ⟨v, found, p, hfound, -, hcells, hplace⟩ :=
        place_of_liveCell (hstale i other hbefore hother hnamed) hnamed hmapped
      obtain ⟨rfl, rfl⟩ := Prod.mk.inj (hframed.separate _ _ _ hplace hheld)
      rw [hcells, Option.some.inj (hfound.symm.trans htable)]
    · rw [Option.some.inj (hother.symm.trans (pageTables_of_tableOf htable))]
  obtain ⟨next, hrehome, hrehomed⟩ :=
    rehome_returns htarget lastPage (table + lastPage)
  refine ⟨next, ?_, hrehomed.cleared hapart hframed lastPage_lt u htable lastPage_lt
    hcell⟩
  rw [evictLast, heq, hsame]
  exact hrehome

end Clearing

/-- What they need: no search finds an entry of a joined thread, and where the last
page is fetched, the last frame holds the last page of some thread. -/
structure Resumable (s : Paging) (u stop count : Nat) : Prop where
  ends : s.EndsAt u stop
  stays : s.Stays u stop
  room : ∀ i, i < stop → s.place (u, i) ≠ some i → count < maxThreads
  free : ∀ i, Moved stop i → s.place (u, i) ≠ some i → s.nextFreePage ≠ none
  stale : ∀ i, i < stop → s.place (u, i) ≠ some i → s.StaleFree i
  last : s.place (u, lastPage) ≠ some lastPage →
    ∃ owner, s.place (owner, lastPage) = some lastPage ∧
      ∀ j table, j < owner → s.pageTables j = some table →
        s.cells (table + lastPage) = lastPage → s.LiveCell (table + lastPage)

namespace Gathered

variable {s mid : Paging} {u : Nat} {done : Nat → Prop}

theorem liveCell (h : Gathered True s mid u done) {cell : Nat}
    (hstale : s.cells cell = mid.cells cell → s.LiveCell cell) : mid.LiveCell cell := by
  rw [h.rewrites.liveCell]
  rcases Classical.em (s.LiveCell cell) with hlive | hdead
  · exact hlive
  · exact hstale (h.outside cell hdead).symm

theorem staleFree (h : Gathered True s mid u done) {frame : Nat}
    (hstale : s.StaleFree frame) : mid.StaleFree frame := by
  intro j table k htable hk hcell
  rw [h.rewrites.pageTables] at htable
  exact h.liveCell fun hsame => hstale j table k htable hk (hsame.trans hcell)

end Gathered

theorem resume_spec {s : Paging} {u table stop count : Nat} (hsafe : s.Resumable u stop count)
    (hslots : s.Slots count) (hcount : count ≤ maxThreads)
    (hlive : ∀ t table, s.tableOf t = some table → t < count)
    (hapart : s.Apart) (hranged : s.Ranged) (htable : s.tableOf u = some table)
    (hframed : Framed s.place s.masterTable (fun _ => False))
    (hlast : s.place (u, lastPage) ≠ none) :
    ∃ next, s.resumePages table = some next ∧ Switched s next u ∧
      (s.Within u → next.logicalMemory = s.logicalMemory) := by
  have hstop := hsafe.ends.lt_last hlast
  have hlive' : ∀ {mid : Paging}, Rewrites s mid → ∀ t table, mid.tableOf t = some table →
      t < count := by
    intro mid hrewrites t table htable
    rw [hrewrites.tableOf] at htable
    exact hlive t table htable
  have hclear : ∀ i mid, i < stop → Gathered True s mid u (fun q => q < i) →
      mid.place (u, i) ≠ some i →
        ∃ mid', evict i mid = some mid' ∧ Cleared True mid mid' u i := by
    intro i mid hi h haway
    have hsaway : s.place (u, i) ≠ some i := by
      intro hplaced
      exact haway (h.kept (u, i) i (fun hin => Nat.lt_irrefl i hin.2) hplaced
        fun _ => Nat.lt_irrefl i)
    exact evict_clears (h.rewrites.apart hapart) h.framed
      (Nat.lt_trans hi hsafe.ends.lt) (hslots.congr h.rewrites.pageTables) u
      (hsafe.room i hi hsaway) (hlive' h.rewrites)
      (h.staleFree (hsafe.stale i hi hsaway))
      (h.free (hsafe.free i (Or.inl hi) hsaway))
  have hclearLast : ∀ mid, Gathered True s mid u (fun q => q < stop) →
      mid.place (u, lastPage) ≠ some lastPage →
        ∃ mid', evictLast mid = some mid' ∧ Cleared True mid mid' u lastPage := by
    intro mid h haway
    have hsaway : s.place (u, lastPage) ≠ some lastPage := by
      intro hplaced
      exact haway (h.kept (u, lastPage) lastPage (fun hin => Nat.lt_asymm hstop hin.2)
        hplaced fun _ => Nat.lt_asymm hstop)
    obtain ⟨owner, hheld, hstale⟩ := hsafe.last hsaway
    have hheld' := h.kept (owner, lastPage) lastPage
      (fun hin => Nat.lt_asymm hstop hin.2) hheld fun _ => Nat.lt_asymm hstop
    apply evictLast_clears (h.rewrites.apart hapart) h.framed
      (hslots.congr h.rewrites.pageTables) u hcount (hlive' h.rewrites) hheld' _
      (h.free (hsafe.free lastPage (Or.inr rfl) hsaway))
    intro j other hj hother hcell
    rw [h.rewrites.pageTables] at hother
    exact h.liveCell fun hsame => hstale j other hj hother (hsame.trans hcell)
  obtain ⟨next, hnext, hgathered⟩ :=
    gather_spec hapart hranged htable hsafe.ends hframed hlast hclear hclearLast
  refine ⟨next, hnext, ⟨hgathered.rewrites, hgathered.framed, ?_⟩, ?_⟩
  · intro q frame
    exact hgathered.all_inPlace hsafe.stays
  · intro hwithin
    exact (hgathered.within hwithin).2

end RutgersOS.Assignment2.Paging
