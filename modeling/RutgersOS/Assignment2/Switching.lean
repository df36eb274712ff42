import RutgersOS.Assignment2.FrameTable

namespace RutgersOS.Assignment2.Paging

open RutgersOS.Memory

/-! The loops of `my_pthread_yield`.  The pages that they move are those before
the first unmapped one, and the last. -/

def lastPage : Nat :=
  memoryPages - 1

/-- The first page that is not mapped. -/
structure EndsAt (s : Paging) (t stop : Nat) : Prop where
  mapped : ∀ k, k < stop → s.place (t, k) ≠ none
  ended : s.place (t, stop) = none
  lt : stop < memoryPages

def Moved (stop q : Nat) : Prop :=
  q < stop ∨ q = lastPage

/-- The first `n` free frames, which the next `n` pages to leave get. -/
def landing (masterTable : Nat → Bool) : Nat → List Nat
  | 0 => []
  | n + 1 =>
      match nextFree masterTable 0 totalPages with
      | none => []
      | some frame => frame :: landing (Function.update masterTable frame true) n

theorem landing_free (n : Nat) :
    ∀ {masterTable : Nat → Bool} {frame : Nat}, frame ∈ landing masterTable n →
      masterTable frame = false := by
  induction n with
  | zero => exact nofun
  | succ n ih =>
      intro masterTable frame h
      rw [landing] at h
      split at h
      · cases h
      · next first hfirst =>
          obtain ⟨-, -, hfree, -⟩ := nextFree_spec totalPages hfirst
          rcases List.mem_cons.mp h with rfl | hrest
          · exact hfree
          · have hlater := ih hrest
            rcases Classical.em (frame = first) with rfl | hne
            · exact hfree
            · rwa [Function.update_of_ne hne] at hlater

theorem landing_length_le (n : Nat) :
    ∀ masterTable : Nat → Bool, (landing masterTable n).length ≤ n := by
  induction n with
  | zero => exact fun _ => Nat.le_refl 0
  | succ n ih =>
      intro masterTable
      rw [landing]
      split
      · exact Nat.zero_le _
      · exact Nat.succ_le_succ (ih _)

theorem landing_succ {s : Paging} {frame : Nat} (h : s.nextFreePage = some frame)
    (n : Nat) : landing s.masterTable (n + 1) =
      frame :: landing (Function.update s.masterTable frame true) n := by
  have hfirst : nextFree s.masterTable 0 totalPages = some frame := h
  rw [landing, hfirst]

theorem nextFreePage_of_landing {s : Paging} {n : Nat}
    (h : 0 < (landing s.masterTable n).length) : ∃ frame, s.nextFreePage = some frame := by
  cases n with
  | zero => cases h
  | succ n =>
      rw [landing] at h
      split at h
      · cases h
      · next frame hfirst => exact ⟨frame, hfirst⟩

theorem EndsAt.one {s : Paging} {t : Nat} (hfirst : s.place (t, 0) ≠ none)
    (hsecond : s.place (t, 1) = none) : s.EndsAt t 1 := by
  refine ⟨fun k hk => ?_, hsecond, by decide⟩
  obtain rfl := Nat.lt_one_iff.mp hk
  exact hfirst

theorem EndsAt.new {s : Paging} {t : Nat}
    (hnew : ∀ q, s.place (t, q) ≠ none ↔ q = 0 ∨ q = lastPage) : s.EndsAt t 1 := by
  refine .one ((hnew 0).mpr (Or.inl rfl)) (Classical.not_not.mp fun hmapped => ?_)
  rcases (hnew 1).mp hmapped with hone | hone
  · cases hone
  · cases hone

theorem EndsAt.lt_last {s : Paging} {t stop : Nat} (h : s.EndsAt t stop)
    (hlast : s.place (t, lastPage) ≠ none) : stop < lastPage := by
  have hlt := h.lt
  have hne : stop ≠ lastPage := by
    rintro rfl
    exact hlast h.ended
  simp only [lastPage] at hne ⊢
  omega

theorem lastPage_lt : lastPage < memoryPages := by
  decide

theorem page_lt_total {q : Nat} (h : q < memoryPages) : q < totalPages :=
  Nat.lt_trans h (by decide)

structure Evacuated (s next : Paging) (t i : Nat) : Prop where
  rewrites : Rewrites s next
  landed : ∀ k, k < i → ∃ frame, next.place (t, k) = some frame ∧
    frame ∈ landing s.masterTable i
  kept : ∀ key, ¬ (key.1 = t ∧ key.2 < i) → next.place key = s.place key
  later : ∀ n, landing s.masterTable (i + n) =
    landing s.masterTable i ++ landing next.masterTable n
  framed : Framed next.place next.masterTable (fun frame => frame < i)
  logicalMemory : (∀ frame ∈ landing s.masterTable i,
      frame < memoryPages ∨ s.fileOpen = true) →
    next.logicalMemory = s.logicalMemory

namespace Evacuated

theorem start {s : Paging} (t : Nat)
    (hframed : Framed s.place s.masterTable (fun _ => False)) : Evacuated s s t 0 where
  rewrites := .refl s
  landed k hk := absurd hk (Nat.not_lt_zero k)
  kept _ _ := rfl
  later n := by
    rw [Nat.zero_add]
    rfl
  framed := hframed.congr fun frame => iff_of_false (Nat.not_lt_zero frame) id
  logicalMemory _ := rfl

theorem landing_snoc {s mid : Paging} {t i frame : Nat} (h : Evacuated s mid t i)
    (hfree : mid.nextFreePage = some frame) :
    landing s.masterTable (i + 1) = landing s.masterTable i ++ [frame] := by
  rw [h.later 1, landing_succ hfree]
  rfl

theorem step {s mid next : Paging} {t table i frame : Nat} (h : Evacuated s mid t i)
    (hrehomed : Rehomed mid next i (table + i) frame)
    (hmoves : Moves mid.place next.place (t, i) i frame) (hi : i < memoryPages) :
    Evacuated s next t (i + 1) := by
  have hsnoc := h.landing_snoc hrehomed.free
  have hother : ∀ k, k < i → next.place (t, k) = mid.place (t, k) := by
    intro k hk
    apply hmoves.kept
    intro heq
    have hsame := (Prod.mk.inj heq).2
    omega
  refine
    { rewrites := h.rewrites.trans hrehomed.rewrites
      landed := ?_
      kept := ?_
      later := ?_
      framed := ?_
      logicalMemory := ?_ }
  · intro k hk
    rw [hsnoc]
    rcases Nat.lt_succ_iff_lt_or_eq.mp hk with hold | rfl
    · obtain ⟨f, hf, hmem⟩ := h.landed k hold
      exact ⟨f, (hother k hold).trans hf, List.mem_append_left _ hmem⟩
    · exact ⟨frame, hmoves.moved, List.mem_append_right _ List.mem_cons_self⟩
  · intro key hout
    rw [hmoves.kept key, h.kept key fun hin => hout ⟨hin.1, by omega⟩]
    rintro rfl
    exact hout ⟨rfl, Nat.lt_succ_self _⟩
  · intro n
    rw [hsnoc, Nat.add_assoc, Nat.add_comm 1 n, h.later, landing_succ hrehomed.free,
      hrehomed.masterTable, List.append_assoc, List.singleton_append]
  · apply (hrehomed.framed h.framed hmoves).congr
    intro f
    exact Nat.lt_succ_iff_lt_or_eq
  · intro hfile
    rw [hsnoc] at hfile
    have hframe := hfile frame (List.mem_append_right _ List.mem_cons_self)
    rw [← h.rewrites.fileOpen] at hframe
    rw [hrehomed.logicalMemory h.framed.separate hmoves hi hframe]
    exact h.logicalMemory fun f hf => hfile f (List.mem_append_left _ hf)

end Evacuated

section Outgoing

variable {s : Paging} {t table stop : Nat} (hapart : s.Apart)
  (htable : s.tableOf t = some table)
  (hplaced : ∀ q frame, s.place (t, q) = some frame → frame = q)
  (hends : s.EndsAt t stop)
  (henough : (landing s.masterTable (stop + 1)).length = stop + 1)

include hapart htable hplaced hends henough

theorem swapOutPages_spec (n : Nat) :
    ∀ {mid : Paging} {i : Nat}, Evacuated s mid t i → i ≤ stop → stop < i + n →
      ∃ next, swapOutPages table mid i n = some (stop, next) ∧
        Evacuated s next t stop := by
  induction n with
  | zero => exact fun _ hle hlt => absurd hlt (Nat.not_lt.mpr hle)
  | succ n ih =>
      intro mid i h hle hlt
      have hi : i < memoryPages := Nat.lt_of_le_of_lt hle hends.lt
      have htable' : mid.tableOf t = some table := h.rewrites.tableOf ▸ htable
      have hkey := h.kept (t, i) fun hin => Nat.lt_irrefl i hin.2
      rw [swapOutPages]
      rcases Nat.lt_or_eq_of_le hle with hmore | rfl
      · cases hplace : s.place (t, i) with
        | none => exact absurd hplace (hends.mapped i hmore)
        | some frame =>
            obtain rfl := hplaced i frame hplace
            obtain ⟨other, hother, -, hcell, hmapped⟩ :=
              place_eq_some.mp (hkey.trans hplace)
            obtain rfl := Option.some.inj (htable'.symm.trans hother)
            have hlater := congrArg List.length (h.later (stop + 1 - frame))
            have hbound := landing_length_le frame s.masterTable
            rw [Nat.add_sub_cancel' (Nat.le_succ_of_le hle), henough,
              List.length_append] at hlater
            have hpositive :
                0 < (landing mid.masterTable (stop + 1 - frame)).length := by
              omega
            obtain ⟨target, hfree⟩ := nextFreePage_of_landing hpositive
            obtain ⟨next, hrehome, hrehomed⟩ :=
              rehome_returns hfree frame (table + frame)
            have hmoves := hrehomed.moves (h.rewrites.apart hapart) h.framed htable'
              hi hcell hmapped
            rw [if_neg (hcell.symm ▸ hmapped), hrehome]
            exact ih (h.step hrehomed hmoves hi) hmore (by omega)
      · have hunmapped := (place_eq_none htable' hi).mp (hkey.trans hends.ended)
        rw [if_pos hunmapped]
        exact ⟨mid, rfl, h⟩

/-- All the pages that the code moves, and the releases that it delayed. -/
structure SwitchedOut (s next : Paging) (t stop : Nat) : Prop where
  rewrites : Rewrites s next
  landed : ∀ k, Moved stop k → ∃ frame, next.place (t, k) = some frame ∧
    frame ∈ landing s.masterTable (stop + 1)
  kept : ∀ key, ¬ (key.1 = t ∧ Moved stop key.2) → next.place key = s.place key
  framed : Framed next.place next.masterTable (fun _ => False)
  logicalMemory : (∀ frame ∈ landing s.masterTable (stop + 1),
      frame < memoryPages ∨ s.fileOpen = true) →
    next.logicalMemory = s.logicalMemory

theorem switchOut_spec (hframed : Framed s.place s.masterTable (fun _ => False))
    (hlast : s.place (t, lastPage) ≠ none) :
    ∃ next, s.switchOut table = some next ∧ SwitchedOut s next t stop := by
  obtain ⟨mid, hpages, h⟩ := swapOutPages_spec hapart htable hplaced hends henough
    memoryPages (.start t hframed) (Nat.zero_le stop) (by have hlt := hends.lt; omega)
  have hstop := hends.lt_last hlast
  have hnotlast : ¬ lastPage < stop := Nat.not_lt.mpr (Nat.le_of_lt hstop)
  have hkey := h.kept (t, lastPage) fun hin => hnotlast hin.2
  have hplace : mid.place (t, lastPage) = some lastPage := by
    cases hcase : s.place (t, lastPage) with
    | none => exact absurd hcase hlast
    | some frame =>
        rw [hkey, hcase]
        exact congrArg some (hplaced lastPage frame hcase)
  have htable' : mid.tableOf t = some table := h.rewrites.tableOf ▸ htable
  obtain ⟨other, hother, -, hcell, hmapped⟩ := place_eq_some.mp hplace
  obtain rfl := Option.some.inj (htable'.symm.trans hother)
  have hlater := congrArg List.length (h.later 1)
  have hbound := landing_length_le stop s.masterTable
  rw [henough, List.length_append] at hlater
  have hpositive : 0 < (landing mid.masterTable 1).length := by
    omega
  obtain ⟨frame, hfree⟩ := nextFreePage_of_landing hpositive
  obtain ⟨after, hout⟩ := swapOut_returns hfree lastPage
  have hreleased := release_spec hout (table + lastPage)
  have hmoves := hreleased.moves (h.rewrites.apart hapart) h.framed htable' lastPage_lt
    hcell hmapped
  have hmarked := hreleased.framed h.framed hnotlast hmoves
  have hsnoc := h.landing_snoc hfree
  refine ⟨Paging.unmarkBelow (((after.mark lastPage false).setCell (table + lastPage)
    frame).mark frame true) stop, ?_, ?_⟩
  · rw [switchOut, hpages]
    change (mid.swapOut lastPage).bind _ = _
    rw [hout]
    rfl
  have hlanded : ∀ k, Moved stop k → ∃ f,
      Paging.place (((after.mark lastPage false).setCell (table + lastPage)
        frame).mark frame true) (t, k) = some f ∧
      f ∈ landing s.masterTable (stop + 1) := by
    intro k hk
    rw [hsnoc]
    rcases hk with hk | rfl
    · obtain ⟨f, hf, hmem⟩ := h.landed k hk
      refine ⟨f, ?_, List.mem_append_left _ hmem⟩
      rw [hmoves.kept (t, k), hf]
      intro heq
      have hsame := (Prod.mk.inj heq).2
      omega
    · exact ⟨frame, hmoves.moved, List.mem_append_right _ List.mem_cons_self⟩
  have hkept : ∀ key, ¬ (key.1 = t ∧ Moved stop key.2) →
      Paging.place (((after.mark lastPage false).setCell (table + lastPage)
        frame).mark frame true) key = s.place key := by
    intro key hout
    rw [hmoves.kept key, h.kept key fun hin => hout ⟨hin.1, Or.inl hin.2⟩]
    rintro rfl
    exact hout ⟨rfl, Or.inr rfl⟩
  refine
    { rewrites := ?_
      landed := hlanded
      kept := hkept
      framed := ?_
      logicalMemory := ?_ }
  · have hrewrites := h.rewrites.trans hreleased.rewrites
    exact ⟨hrewrites.scheduler, hrewrites.pageTables, hrewrites.fileOpen,
      hrewrites.cells⟩
  · apply hmarked.release
    · -- frames below `storedi` were the thread's own, and nobody moved there
      rintro f hf ⟨u, q⟩ hheld
      have hown : s.place (t, f) = some f := by
        cases hcase : s.place (t, f) with
        | none => exact absurd hcase (hends.mapped f hf)
        | some other => exact congrArg some (hplaced f other hcase)
      rcases Classical.em (u = t ∧ Moved stop q) with ⟨rfl, hq⟩ | hnot
      · obtain ⟨other, hplace, hmem⟩ := hlanded q hq
        obtain rfl := Option.some.inj (hheld.symm.trans hplace)
        have hused := hframed.used_of_place hown
        rw [landing_free _ hmem] at hused
        cases hused
      · have hold := (hkept (u, q) hnot).symm.trans hheld
        obtain ⟨rfl, rfl⟩ := Prod.mk.inj (hframed.separate _ _ _ hold hown)
        exact hnot ⟨rfl, Or.inl hf⟩
    · intro f
      change (if f < stop then false else _) = true ↔ _
      split
      · next hlt => exact iff_of_false Bool.false_ne_true fun hin => hin.2 hlt
      · next hge => exact (and_iff_left hge).symm
  · intro hfile
    rw [hsnoc] at hfile
    have hframe := hfile frame (List.mem_append_right _ List.mem_cons_self)
    rw [← h.rewrites.fileOpen] at hframe
    have hrest := hreleased.logicalMemory h.framed.separate hmoves lastPage_lt hframe
    exact hrest.trans
      (h.logicalMemory fun f hf => hfile f (List.mem_append_left _ hf))

end Outgoing

/-- No page of `u` is in the swap file after it was closed, and no page that is
evicted goes there. -/
structure Within (s : Paging) (u : Nat) : Prop where
  pages : ∀ q frame, s.place (u, q) = some frame →
    frame < memoryPages ∨ s.fileOpen = true
  free : ∀ frame, s.nextFreePage = some frame →
    frame < memoryPages ∨ s.fileOpen = true

structure Cleared (evicting : Prop) (s next : Paging) (u i : Nat) : Prop where
  rewrites : Rewrites s next
  outside : ∀ cell, ¬ s.LiveCell cell → next.cells cell = s.cells cell
  vacant : Vacant next.place i
  kept : ∀ key frame, s.place key = some frame → (evicting → frame ≠ i) →
    next.place key = some frame
  absent : ∀ key, s.place key = none → next.place key = none
  framed : ∃ delayed, Framed next.place next.masterTable delayed ∧
    ∀ frame, delayed frame → frame = i
  within : Within s u → next.logicalMemory = s.logicalMemory ∧
    ∀ q frame, next.place (u, q) = some frame →
      frame < memoryPages ∨ s.fileOpen = true

theorem Cleared.of_vacant {evicting : Prop} {s : Paging} {i : Nat} (u : Nat)
    (hframed : Framed s.place s.masterTable (fun _ => False))
    (hvacant : Vacant s.place i) : Cleared evicting s s u i where
  rewrites := .refl s
  outside _ _ := rfl
  vacant := hvacant
  kept _ _ hplace _ := hplace
  absent _ hplace := hplace
  framed := ⟨_, hframed, fun _ => False.elim⟩
  within hwithin := ⟨rfl, hwithin.pages⟩

structure Gathered (evicting : Prop) (s next : Paging) (u : Nat)
    (done : Nat → Prop) : Prop where
  rewrites : Rewrites s next
  outside : ∀ cell, ¬ s.LiveCell cell → next.cells cell = s.cells cell
  placed : ∀ q, done q → next.place (u, q) = some q
  kept : ∀ key frame, ¬ (key.1 = u ∧ done key.2) → s.place key = some frame →
    (evicting → ¬ done frame) → next.place key = some frame
  absent : ∀ key, s.place key = none → next.place key = none
  framed : Framed next.place next.masterTable (fun _ => False)
  free : s.nextFreePage ≠ none → next.nextFreePage ≠ none
  within : Within s u → Within next u ∧ next.logicalMemory = s.logicalMemory

namespace Gathered

variable {evicting : Prop} {s mid mid' next : Paging} {u table i : Nat}
  {done : Nat → Prop}

theorem start (hframed : Framed s.place s.masterTable (fun _ => False))
    (hnone : ∀ q, ¬ done q) : Gathered evicting s s u done where
  rewrites := .refl s
  outside _ _ := rfl
  placed q hq := absurd hq (hnone q)
  kept _ _ _ hplace _ := hplace
  absent _ hplace := hplace
  framed := hframed
  free := id
  within hwithin := ⟨hwithin, rfl⟩

theorem congr {done' : Nat → Prop} (h : Gathered evicting s next u done)
    (hsame : ∀ q, done' q ↔ done q) : Gathered evicting s next u done' := by
  obtain rfl : done' = done := funext fun q => propext (hsame q)
  exact h

theorem inPlace (h : Gathered evicting s mid u done) (hplaced : mid.place (u, i) = some i)
    (hplace : next.place = mid.place) (hmaster : next.masterTable = mid.masterTable)
    (hcontent : next.content = mid.content) (hcells : next.cells = mid.cells)
    (hrewrites : Rewrites mid next) :
    Gathered evicting s next u (fun q => done q ∨ q = i) := by
  have hfree : next.nextFreePage = mid.nextFreePage := by
    rw [nextFreePage, nextFreePage, hmaster]
  refine
    { rewrites := h.rewrites.trans hrewrites
      outside := ?_
      placed := ?_
      kept := ?_
      absent := ?_
      framed := ?_
      free := ?_
      within := ?_ }
  · intro cell hcell
    rw [hcells]
    exact h.outside cell hcell
  · rintro q (hq | rfl)
    · rw [hplace]
      exact h.placed q hq
    · rw [hplace]
      exact hplaced
  · intro key frame hout hkey hframe
    rw [hplace]
    exact h.kept key frame (fun hin => hout ⟨hin.1, Or.inl hin.2⟩) hkey
      fun hevicting hdone => hframe hevicting (Or.inl hdone)
  · rw [hplace]
    exact h.absent
  · rw [hplace, hmaster]
    exact h.framed
  · rw [hfree]
    exact h.free
  · intro hwithin
    obtain ⟨⟨hpages, hfirst⟩, hlogical⟩ := h.within hwithin
    refine ⟨⟨?_, ?_⟩, ?_⟩
    · rw [hplace, hrewrites.fileOpen]
      exact hpages
    · rw [hfree, hrewrites.fileOpen]
      exact hfirst
    · rw [← hlogical, logicalMemory, logicalMemory, hplace, hcontent]

theorem fetch (h : Gathered evicting s mid u done)
    (hcleared : Cleared evicting mid mid' u i)
    (hfetched : Fetched mid' next (table + i) i) (hapart : s.Apart) (hranged : s.Ranged)
    (htable : s.tableOf u = some table) (hi : i < memoryPages) (hdone : ¬ done i)
    (hmapped : mid.place (u, i) ≠ none) :
    Gathered evicting s next u (fun q => done q ∨ q = i) := by
  have hto := h.rewrites.trans hcleared.rewrites
  have htable' : mid'.tableOf u = some table := hto.tableOf ▸ htable
  have hcell : mid'.cells (table + i) ≠ unmapped := by
    have hplace := hcleared.rewrites.mapped hmapped
    rwa [Ne, place_eq_none htable' hi] at hplace
  have hmoves := hfetched.moves (hto.apart hapart) htable' hi hcell hcleared.vacant
  obtain ⟨delayed, hframed, hdelayed⟩ := hcleared.framed
  have hsource := hto.ranged hranged _ _ hmoves.source
  have hreleased : next.masterTable (mid'.cells (table + i)) = false := by
    rw [hfetched.masterTable, Function.update_of_ne hmoves.ne.symm,
      Function.update_self]
  refine
    { rewrites := hto.trans (hfetched.rewrites hi)
      outside := ?_
      placed := ?_
      kept := ?_
      absent := ?_
      framed := hfetched.framed hmoves hframed hdelayed
      free := fun _ => nextFreePage_exists hsource hreleased
      within := ?_ }
  · intro cell hdead
    have hne : cell ≠ table + i := fun heq => hdead ⟨u, table, i, htable, hi, heq⟩
    rw [hfetched.cells, Function.update_of_ne hne,
      hcleared.outside cell fun hlive => hdead ((h.rewrites.liveCell cell).mp hlive),
      h.outside cell hdead]
  · rintro q (hq | rfl)
    · have hne : q ≠ i := fun heq => hdone (heq ▸ hq)
      rw [hmoves.kept (u, q) fun heq => hne (Prod.mk.inj heq).2]
      exact hcleared.kept (u, q) q (h.placed q hq) fun _ => hne
    · exact hmoves.moved
  · intro key frame hout hkey hframe
    have hmid := h.kept key frame (fun hin => hout ⟨hin.1, Or.inl hin.2⟩) hkey
      fun hevicting hd => hframe hevicting (Or.inl hd)
    rw [hmoves.kept key]
    · exact hcleared.kept key frame hmid fun hevicting heq => hframe hevicting (Or.inr heq)
    · rintro rfl
      exact hout ⟨rfl, Or.inr rfl⟩
  · intro key hnone
    have hmid := hcleared.absent key (h.absent key hnone)
    rw [hmoves.kept key, hmid]
    rintro rfl
    exact hmapped (h.absent _ hnone)
  · intro hwithin
    obtain ⟨hwithin', hlogical⟩ := h.within hwithin
    obtain ⟨hlogical', hpages⟩ := hcleared.within hwithin'
    have hopen : next.fileOpen = mid.fileOpen :=
      hfetched.fileOpen.trans hcleared.rewrites.fileOpen
    have hfile := hpages i _ hmoves.source
    refine ⟨⟨?_, ?_⟩, ?_⟩
    · intro q frame hplace
      rw [hopen]
      rcases Classical.em (q = i) with rfl | hne
      · obtain rfl := Option.some.inj (hmoves.moved.symm.trans hplace)
        exact Or.inl hi
      · rw [hmoves.kept (u, q) fun heq => hne (Prod.mk.inj heq).2] at hplace
        exact hpages q frame hplace
    · intro frame hfirst
      rw [hopen]
      apply hfile.imp_left
      exact Nat.lt_of_le_of_lt (nextFreePage_le hfirst hreleased)
    · rw [hfetched.logicalMemory hmoves hframed.separate (hto.ranged hranged) hi
        (hcleared.rewrites.fileOpen.symm ▸ hfile), hlogical', hlogical]

theorem bringIn {evict : Paging → Option Paging} (h : Gathered evicting s mid u done)
    (hapart : s.Apart) (hranged : s.Ranged) (htable : s.tableOf u = some table)
    (hi : i < memoryPages) (hdone : ¬ done i) (hmapped : s.place (u, i) ≠ none)
    (hclear : mid.place (u, i) ≠ some i →
      ∃ mid', evict mid = some mid' ∧ Cleared evicting mid mid' u i) :
    ∃ next, mid.bringIn evict table i = some next ∧
      Gathered evicting s next u (fun q => done q ∨ q = i) := by
  have htable' : mid.tableOf u = some table := h.rewrites.tableOf ▸ htable
  have hmapped' := h.rewrites.mapped hmapped
  have hcells : mid.cells (table + i) ≠ unmapped := by
    rwa [Ne, place_eq_none htable' hi] at hmapped'
  have hplace : mid.place (u, i) = some (mid.cells (table + i)) :=
    place_eq_some.mpr ⟨table, htable', hi, rfl, hcells⟩
  rcases Classical.em (mid.cells (table + i) = i) with heq | hne
  · refine ⟨(mid.setCell (table + i) i).mark i true, ?_, ?_⟩
    · rw [Paging.bringIn, if_neg fun hne => hne heq]
      rfl
    · obtain ⟨hsame, hmaster, hcontent, hrewrites⟩ :=
        bringIn_inPlace h.framed htable' hi heq rfl
      have hcell : Function.update mid.cells (table + i) i = mid.cells := by
        rw [Function.update_eq_self_iff]
        exact heq.symm
      exact h.inPlace (hplace.trans (congrArg some heq)) hsame hmaster hcontent hcell
        hrewrites
  · obtain ⟨mid', hevict, hcleared⟩ := hclear fun hsome =>
      hne (Option.some.inj (hplace.symm.trans hsome))
    obtain ⟨next, hnext⟩ :
        ∃ next, mid.bringIn evict table i = some next := by
      rw [Paging.bringIn, if_pos hne, hevict]
      exact ⟨_, rfl⟩
    refine ⟨next, hnext, ?_⟩
    rcases bringIn_spec hnext with ⟨heq, -⟩ | ⟨-, after, hafter, hfetched⟩
    · exact absurd heq hne
    · obtain rfl := Option.some.inj (hevict.symm.trans hafter)
      exact h.fetch hcleared hfetched hapart hranged htable hi hdone hmapped'

theorem vacant (h : Gathered False s mid u done) (hdone : ¬ done i)
    (hclear : s.place (u, i) ≠ some i → ∀ key, s.place key = some i →
      key.1 = u ∧ done key.2)
    (haway : mid.place (u, i) ≠ some i) : Vacant mid.place i := by
  intro key hheld
  rcases Classical.em (key.1 = u ∧ done key.2) with ⟨rfl, hin⟩ | hout
  · have hplaced := h.placed key.2 hin
    obtain rfl := Option.some.inj (hheld.symm.trans hplaced)
    exact hdone hin
  · cases hkey : s.place key with
    | none =>
        rw [h.absent key hkey] at hheld
        cases hheld
    | some frame =>
        have hkept := h.kept key frame hout hkey nofun
        obtain rfl := Option.some.inj (hheld.symm.trans hkept)
        apply hout
        apply hclear _ key hkey
        intro hsome
        exact haway (h.kept (u, i) i (fun hin => hdone hin.2) hsome nofun)

end Gathered

section Incoming

variable {evicting : Prop} {s : Paging} {u table stop : Nat} (hapart : s.Apart)
  (hranged : s.Ranged) (htable : s.tableOf u = some table) (hends : s.EndsAt u stop)

include hapart hranged htable hends

theorem bringInPages_spec {evict : Nat → Paging → Option Paging}
    (hclear : ∀ i mid, i < stop → Gathered evicting s mid u (fun q => q < i) →
      mid.place (u, i) ≠ some i →
        ∃ mid', evict i mid = some mid' ∧ Cleared evicting mid mid' u i) (n : Nat) :
    ∀ {mid : Paging} {i : Nat}, Gathered evicting s mid u (fun q => q < i) →
      i ≤ stop → stop < i + n →
      ∃ next, bringInPages evict table mid i n = some next ∧
        Gathered evicting s next u (fun q => q < stop) := by
  induction n with
  | zero => exact fun _ hle hlt => absurd hlt (Nat.not_lt.mpr hle)
  | succ n ih =>
      intro mid i h hle hlt
      have hi : i < memoryPages := Nat.lt_of_le_of_lt hle hends.lt
      have htable' : mid.tableOf u = some table := h.rewrites.tableOf ▸ htable
      rw [bringInPages]
      rcases Nat.lt_or_eq_of_le hle with hmore | rfl
      · have hmapped := hends.mapped i hmore
        have hcell := h.rewrites.mapped hmapped
        rw [Ne, place_eq_none htable' hi] at hcell
        obtain ⟨next, hnext, hgathered⟩ := h.bringIn hapart hranged htable hi
          (Nat.lt_irrefl i) hmapped (hclear i mid hmore h)
        rw [if_neg hcell, hnext]
        exact ih (hgathered.congr fun q => Nat.lt_succ_iff_lt_or_eq) hmore (by omega)
      · rw [if_pos ((place_eq_none htable' hi).mp (h.absent _ hends.ended))]
        exact ⟨mid, rfl, h⟩

theorem gather_spec {evict : Nat → Paging → Option Paging}
    {evictLast : Paging → Option Paging}
    (hframed : Framed s.place s.masterTable (fun _ => False))
    (hlast : s.place (u, lastPage) ≠ none)
    (hclear : ∀ i mid, i < stop → Gathered evicting s mid u (fun q => q < i) →
      mid.place (u, i) ≠ some i →
        ∃ mid', evict i mid = some mid' ∧ Cleared evicting mid mid' u i)
    (hclearLast : ∀ mid, Gathered evicting s mid u (fun q => q < stop) →
      mid.place (u, lastPage) ≠ some lastPage →
        ∃ mid', evictLast mid = some mid' ∧ Cleared evicting mid mid' u lastPage) :
    ∃ next, ((bringInPages evict table s 0 memoryPages).bind fun mid =>
        mid.bringIn evictLast table lastPage) = some next ∧
      Gathered evicting s next u (Moved stop) := by
  have hstart : Gathered evicting s s u (fun q => q < 0) := .start hframed Nat.not_lt_zero
  obtain ⟨mid, hpages, h⟩ := bringInPages_spec hapart hranged htable hends hclear
    memoryPages hstart (Nat.zero_le stop) (by have hlt := hends.lt; omega)
  obtain ⟨next, hnext, hgathered⟩ := h.bringIn hapart hranged htable lastPage_lt
    (Nat.not_lt.mpr (Nat.le_of_lt (hends.lt_last hlast))) hlast (hclearLast mid h)
  refine ⟨next, ?_, hgathered.congr fun q => Iff.rfl⟩
  rw [hpages]
  exact hnext

end Incoming

def Stays (s : Paging) (u stop : Nat) : Prop :=
  ∀ q frame, ¬ Moved stop q → s.place (u, q) = some frame → frame = q

theorem Gathered.all_inPlace {evicting : Prop} {s next : Paging} {u stop : Nat}
    (h : Gathered evicting s next u (Moved stop)) (hstays : s.Stays u stop) {q frame : Nat}
    (hplace : next.place (u, q) = some frame) : frame = q := by
  rcases Classical.em (Moved stop q) with hin | hout
  · exact Option.some.inj (hplace.symm.trans (h.placed q hin))
  · cases hkey : s.place (u, q) with
    | none =>
        rw [h.absent _ hkey] at hplace
        cases hplace
    | some other =>
        obtain rfl := hstays q other hout hkey
        have hkept := h.kept (u, other) other (fun hin => hout hin.2) hkey fun _ => hout
        exact Option.some.inj (hplace.symm.trans hkept)

/-- In the copies that evict nothing, the frames that the incoming thread needs
must hold nothing but pages of its own that were moved before. -/
def Clear (s : Paging) (u stop : Nat) : Prop :=
  ∀ i, Moved stop i → s.place (u, i) ≠ some i → ∀ key, s.place key = some i →
    key.1 = u ∧ key.2 < i ∧ key.2 < stop

theorem switchIn_spec {s : Paging} {u table stop : Nat} (hapart : s.Apart)
    (hranged : s.Ranged) (htable : s.tableOf u = some table) (hends : s.EndsAt u stop)
    (hframed : Framed s.place s.masterTable (fun _ => False))
    (hlast : s.place (u, lastPage) ≠ none) (hclear : s.Clear u stop) :
    ∃ next, s.switchIn table = some next ∧
      Gathered False s next u (Moved stop) := by
  have hvacant : ∀ {i mid done}, Gathered False s mid u done → Moved stop i → ¬ done i →
      (∀ q, q < i → q < stop → done q) → mid.place (u, i) ≠ some i →
        ∃ mid', some mid = some mid' ∧ Cleared False mid mid' u i := by
    intro i mid done h hi hdone hbefore haway
    refine ⟨mid, rfl, .of_vacant u h.framed (h.vacant hdone ?_ haway)⟩
    intro hsaway key hkey
    obtain ⟨hown, hlow, hstop⟩ := hclear i hi hsaway key hkey
    exact ⟨hown, hbefore key.2 hlow hstop⟩
  apply gather_spec hapart hranged htable hends hframed hlast
  · intro i mid hi h
    exact hvacant h (Or.inl hi) (Nat.lt_irrefl i) fun q hq _ => hq
  · intro mid h
    exact hvacant h (Or.inr rfl)
      (Nat.not_lt.mpr (Nat.le_of_lt (hends.lt_last hlast))) fun q _ hq => hq

/-- What the copies that follow a `switchOut` need: the pages that stay are in
their frames, and a frame that the incoming thread needs is not the first free
one of an outgoing page, nor held by a page that neither loop has moved by then. -/
structure Swappable (s : Paging) (t u stop stop' : Nat) : Prop where
  ends : s.EndsAt t stop
  ends' : s.EndsAt u stop'
  stays : s.Stays u stop'
  clear : ∀ i, Moved stop' i → s.place (u, i) ≠ some i →
    i ∉ landing s.masterTable (stop + 1) ∧ ∀ key, s.place key = some i →
      key.1 = t ∧ Moved stop key.2 ∨ key.1 = u ∧ key.2 < i ∧ key.2 < stop'

structure Switched (s next : Paging) (u : Nat) : Prop where
  rewrites : Rewrites s next
  framed : Framed next.place next.masterTable (fun _ => False)
  inPlace : ∀ q frame, next.place (u, q) = some frame → frame = q

theorem EndsAt.unique {s : Paging} {t stop stop' : Nat} (h : s.EndsAt t stop)
    (h' : s.EndsAt t stop') : stop = stop' := by
  rcases Nat.lt_trichotomy stop stop' with hlt | heq | hgt
  · exact absurd h.ended (h'.mapped stop hlt)
  · exact heq
  · exact absurd h'.ended (h.mapped stop' hgt)

section Swap

variable {s mid : Paging} {t u stop stop' : Nat} (hsafe : s.Swappable t u stop stop')
  (hplaced : ∀ q frame, s.place (t, q) = some frame → frame = q)
  (hframed : Framed s.place s.masterTable (fun _ => False))
  (h : SwitchedOut s mid t stop)

include hsafe h

theorem Swappable.own {q : Nat} (hin : u = t ∧ Moved stop q) : Moved stop' q := by
  obtain ⟨rfl, hq⟩ := hin
  rwa [hsafe.ends.unique hsafe.ends'] at hq

theorem Swappable.mid_endsAt (hlast : s.place (u, lastPage) ≠ none) :
    mid.EndsAt u stop' where
  mapped q hq := h.rewrites.mapped (hsafe.ends'.mapped q hq)
  ended := by
    have hlt := hsafe.ends'.lt_last hlast
    rw [h.kept (u, stop') fun hin => ?_]
    · exact hsafe.ends'.ended
    · rcases hsafe.own h hin with hself | hself
      · exact Nat.lt_irrefl _ hself
      · exact Nat.ne_of_lt hlt hself
  lt := hsafe.ends'.lt

theorem Swappable.mid_stays : mid.Stays u stop' := by
  intro q frame hq hplace
  rw [h.kept (u, q) fun hin => hq (hsafe.own h hin)] at hplace
  exact hsafe.stays q frame hq hplace

include hframed

theorem Swappable.mid_clear : mid.Clear u stop' := by
  intro i hi haway key hheld
  rcases Classical.em (key.1 = t ∧ Moved stop key.2) with ⟨hown, hmoved⟩ | hnot
  · obtain ⟨frame, hplace, hmem⟩ := h.landed key.2 hmoved
    rw [← hown] at hplace
    obtain rfl := Option.some.inj (hheld.symm.trans hplace)
    rcases Classical.em (s.place (u, i) = some i) with hsome | hsaway
    · have hused := hframed.used_of_place hsome
      rw [landing_free _ hmem] at hused
      cases hused
    · exact absurd hmem (hsafe.clear i hi hsaway).1
  · have hkey := (h.kept key hnot).symm.trans hheld
    rcases Classical.em (s.place (u, i) = some i) with hsome | hsaway
    · obtain rfl := hframed.separate _ _ _ hkey hsome
      exact absurd hheld haway
    · exact ((hsafe.clear i hi hsaway).2 key hkey).resolve_left hnot

include hplaced

omit hsafe in
theorem SwitchedOut.lastFree (hlast : s.place (t, lastPage) ≠ none) :
    mid.masterTable lastPage = false := by
  obtain ⟨frame, hplace⟩ := Option.ne_none_iff_exists'.mp hlast
  obtain rfl := hplaced _ _ hplace
  refine Bool.eq_false_iff.mpr fun hused => ?_
  obtain ⟨key, hheld⟩ :=
    exists_of_not_vacant (((h.framed.marks _).mp hused).resolve_right id)
  rcases Classical.em (key.1 = t ∧ Moved stop key.2) with ⟨hown, hmoved⟩ | hnot
  · obtain ⟨other, hother, hmem⟩ := h.landed key.2 hmoved
    rw [← hown] at hother
    obtain rfl := Option.some.inj (hheld.symm.trans hother)
    have hmark := hframed.used_of_place hplace
    rw [landing_free _ hmem] at hmark
    cases hmark
  · have hkey := (h.kept key hnot).symm.trans hheld
    obtain rfl := hframed.separate _ _ _ hkey hplace
    exact hnot ⟨rfl, Or.inr rfl⟩

theorem Swappable.mid_within (hlast : s.place (t, lastPage) ≠ none)
    (hout : ∀ frame ∈ landing s.masterTable (stop + 1),
      frame < memoryPages ∨ s.fileOpen = true)
    (hin : ∀ q frame, s.place (u, q) = some frame →
      frame < memoryPages ∨ s.fileOpen = true) : mid.Within u where
  pages q frame hplace := by
    rw [h.rewrites.fileOpen]
    rcases Classical.em (u = t ∧ Moved stop q) with ⟨rfl, hmoved⟩ | hnot
    · obtain ⟨other, hother, hmem⟩ := h.landed q hmoved
      obtain rfl := Option.some.inj (hplace.symm.trans hother)
      exact hout frame hmem
    · rw [h.kept (u, q) hnot] at hplace
      exact hin q frame hplace
  free frame hfree := by
    left
    have hle := nextFreePage_le hfree (h.lastFree hplaced hframed hlast)
    exact Nat.lt_of_le_of_lt hle lastPage_lt

end Swap

/-- A swap moves the pages of both threads where they belong. -/
theorem swap_spec {s : Paging} {t u stop stop' table table' : Nat}
    (hsafe : s.Swappable t u stop stop')
    (henough : (landing s.masterTable (stop + 1)).length = stop + 1)
    (hplaced : ∀ q frame, s.place (t, q) = some frame → frame = q)
    (hframed : Framed s.place s.masterTable (fun _ => False)) (hapart : s.Apart)
    (hranged : s.Ranged) (htable : s.tableOf t = some table)
    (htable' : s.tableOf u = some table') (hlast : s.place (t, lastPage) ≠ none)
    (hlast' : s.place (u, lastPage) ≠ none) :
    ∃ next, (s.switchOut table).bind (fun mid => mid.switchIn table') = some next ∧
      Switched s next u ∧
      ((∀ frame ∈ landing s.masterTable (stop + 1),
          frame < memoryPages ∨ s.fileOpen = true) →
        (∀ q frame, s.place (u, q) = some frame →
          frame < memoryPages ∨ s.fileOpen = true) →
        next.logicalMemory = s.logicalMemory) := by
  obtain ⟨mid, hmid, h⟩ := switchOut_spec hapart htable hplaced hsafe.ends henough hframed
    hlast
  obtain ⟨next, hnext, hgathered⟩ := switchIn_spec (h.rewrites.apart hapart)
    (h.rewrites.ranged hranged) (h.rewrites.tableOf ▸ htable') (hsafe.mid_endsAt h hlast')
    h.framed (h.rewrites.mapped hlast') (hsafe.mid_clear hframed h)
  refine ⟨next, ?_, ⟨h.rewrites.trans hgathered.rewrites, hgathered.framed, ?_⟩, ?_⟩
  · rw [hmid]
    exact hnext
  · intro q frame
    exact hgathered.all_inPlace (hsafe.mid_stays h)
  · intro hout hin
    rw [(hgathered.within (hsafe.mid_within hplaced hframed h hlast hout hin)).2]
    exact h.logicalMemory hout

end RutgersOS.Assignment2.Paging
