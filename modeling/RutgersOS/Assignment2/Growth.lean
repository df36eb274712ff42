import Mathlib.Data.Finset.Card
import RutgersOS.Assignment2.FaultHandling
import RutgersOS.Assignment2.Protection

namespace RutgersOS.Assignment2.Paging

open RutgersOS.Memory RutgersOS.Pthread

def freeFrames (s : Paging) : Finset Nat :=
  (Finset.range totalPages).filter fun frame => s.masterTable frame = false

theorem mem_freeFrames {s : Paging} {frame : Nat} :
    frame ∈ s.freeFrames ↔ frame < totalPages ∧ s.masterTable frame = false := by
  rw [freeFrames, Finset.mem_filter, Finset.mem_range]

theorem nextFreePage_of_free {s : Paging} (h : 0 < s.freeFrames.card) :
    ∃ frame, s.nextFreePage = some frame := by
  obtain ⟨frame, hframe⟩ := Finset.card_pos.mp h
  obtain ⟨hlt, hfree⟩ := mem_freeFrames.mp hframe
  exact Option.ne_none_iff_exists'.mp (nextFreePage_exists hlt hfree)

theorem freeFrames_update {s next : Paging} {k : Nat}
    (h : next.masterTable = Function.update s.masterTable k true) :
    s.freeFrames.card ≤ next.freeFrames.card + 1 := by
  have herase : s.freeFrames.erase k ⊆ next.freeFrames := by
    intro frame hframe
    obtain ⟨hne, hmem⟩ := Finset.mem_erase.mp hframe
    obtain ⟨hlt, hfree⟩ := mem_freeFrames.mp hmem
    rw [mem_freeFrames, h, Function.update_of_ne hne]
    exact ⟨hlt, hfree⟩
  have hcard := Finset.card_le_card herase
  have hless := Finset.pred_card_le_card_erase (s := s.freeFrames) (a := k)
  omega

theorem nextFree_update {masterTable : Nat → Bool} {frame k : Nat} (hne : frame ≠ k)
    (n : Nat) : ∀ {i : Nat}, nextFree masterTable i n = some frame →
      nextFree (Function.update masterTable k true) i n = some frame := by
  induction n with
  | zero => exact nofun
  | succ n ih =>
      intro i h
      rw [nextFree] at h ⊢
      split at h
      · next hfree =>
          obtain rfl := Option.some.inj h
          rw [Function.update_of_ne hne, if_pos hfree]
      · next hused =>
          rw [if_neg fun hfree => ?_]
          · exact ih h
          · rw [update_open (Bool.not_eq_false _ ▸ hused)] at hfree
            cases hfree

theorem nextFree_update_none {masterTable : Nat → Bool} {k : Nat}
    (h : nextFree masterTable 0 totalPages = none) :
    nextFree (Function.update masterTable k true) 0 totalPages = none := by
  cases hfound : nextFree (Function.update masterTable k true) 0 totalPages with
  | none => rfl
  | some frame =>
      obtain ⟨-, hlt, hfree, -⟩ := nextFree_spec totalPages hfound
      have hne : frame ≠ k := by
        rintro rfl
        rw [Function.update_self] at hfree
        cases hfree
      rw [Function.update_of_ne hne] at hfree
      exact absurd h (nextFree_exists totalPages (Nat.zero_le frame) hlt hfree)

/-- Whichever frame is used, the next ones to be found are among those before. -/
theorem landing_update {frame : Nat} (k n : Nat) : ∀ {masterTable : Nat → Bool},
    frame ∈ landing (Function.update masterTable k true) n →
      frame ∈ landing masterTable (n + 1) := by
  induction n with
  | zero => exact nofun
  | succ n ih =>
      intro masterTable hmem
      cases hfirst : nextFree masterTable 0 totalPages with
      | none =>
          rw [landing, nextFree_update_none hfirst] at hmem
          cases hmem
      | some first =>
          rw [landing, hfirst]
          rcases Classical.em (first = k) with rfl | hne
          · exact List.mem_cons_of_mem _ hmem
          · rw [landing, nextFree_update hne totalPages hfirst] at hmem
            dsimp only at hmem ⊢
            rw [Function.update_comm (Ne.symm hne)] at hmem
            rcases List.mem_cons.mp hmem with rfl | hrest
            · exact List.mem_cons_self
            · exact List.mem_cons_of_mem _ (ih hrest)

theorem landing_more {frame : Nat} (n : Nat) : ∀ {masterTable : Nat → Bool},
    frame ∈ landing masterTable n → frame ∈ landing masterTable (n + 1) := by
  induction n with
  | zero => exact nofun
  | succ n ih =>
      intro masterTable hmem
      cases hfirst : nextFree masterTable 0 totalPages with
      | none =>
          rw [landing, hfirst] at hmem
          cases hmem
      | some first =>
          rw [landing, hfirst] at hmem ⊢
          rcases List.mem_cons.mp hmem with rfl | hrest
          · exact List.mem_cons_self
          · exact List.mem_cons_of_mem _ (ih hrest)

/-- The frame is in no last entry, which `seg_handler` does not return from. -/
def LastFree (s : Paging) (frame : Nat) : Prop :=
  ∀ j table, s.pageTables j = some table → s.cells (table + lastPage) ≠ frame

def claim (s : Paging) (cell frame : Nat) : Paging :=
  ((s.setCell cell frame).mark frame true).protect frame true

/-- The page `f` of the running thread `c` is put in place.  A page of another thread
moves away for it, unless the frame is free, as it always is where `quiet` holds. -/
structure Gained (quiet : Prop) (s next : Paging) (c f : Nat) : Prop where
  lt : f < memoryPages
  rewrites : Rewrites s next
  owned : next.Owned
  absent : s.place (c, f) = none
  placed : next.place (c, f) = some f
  access : next.accessible f = true
  kept : ∀ q, q ≠ f → next.place (c, q) = s.place (c, q)
  logical : ∀ key, key ≠ (c, f) → next.logicalMemory key = s.logicalMemory key
  outside : ∀ cell, ¬ s.LiveCell cell → next.cells cell = s.cells cell
  lasts : (s.masterTable f = true → s.LastFree f) → ∀ k, k ≠ f → s.LastFree k →
    next.LastFree k
  opened : ∀ k, s.masterTable k = true → s.accessible k = true → next.accessible k = true
  closed : ∀ k, k ≠ f → s.accessible k = false → next.accessible k = false
  marks : ∃ a, next.masterTable = Function.update s.masterTable a true ∧
    (a = f ∧ s.masterTable f = false ∨ ¬ quiet ∧ s.nextFreePage = some a)
  content : ∀ k, s.masterTable k = false → (next.masterTable k = false ∨ k = f) →
    next.content k = s.content k
  beyond : ∀ x, usrSize ≤ x → next.memory x = s.memory x

/-- `swap_out` opens the frame that it empties, and nothing else. -/
theorem swapOut_closed {s next : Paging} {page frame f : Nat}
    (h : s.swapOut page = some (frame, next)) (hf : f ≠ page)
    (hclosed : s.accessible f = false) : next.accessible f = false := by
  obtain ⟨freePage, -, heq⟩ := Option.bind_eq_some_iff.mp h
  obtain ⟨rfl, rfl⟩ := Prod.mk.inj (Option.some.inj heq)
  have hpage : (s.protect page true).accessible f = false :=
    (Function.update_of_ne hf _ _).trans hclosed
  split
  · change Function.update (Function.update (s.protect page true).accessible _ true) _ false f
      = false
    rcases Classical.em (f = freePage) with rfl | hne
    · exact Function.update_self _ _ _
    · rw [Function.update_of_ne hne, Function.update_of_ne hne]
      exact hpage
  · change ((s.protect page true).writeSlot _ page).accessible f = false
    rw [writeSlot_accessible]
    exact hpage

theorem swapOut_beyond {s next : Paging} {page frame : Nat}
    (h : s.swapOut page = some (frame, next)) (hpage : page < memoryPages) {x : Int}
    (hx : usrSize ≤ x) : next.memory x = s.memory x := by
  have haway : ∀ f, f < memoryPages →
      ¬ (frameAddress f ≤ x ∧ x < frameAddress f + pageSize) := by
    intro f hf
    simp only [frameAddress, pageSize, memoryPages, usrSize] at hf hx ⊢
    omega
  obtain ⟨freePage, -, heq⟩ := Option.bind_eq_some_iff.mp h
  obtain ⟨rfl, rfl⟩ := Prod.mk.inj (Option.some.inj heq)
  split
  · next hlow =>
      change clearPage (copyPage s.memory _ s.memory _) _ x = _
      rw [clearPage, if_neg (haway page hpage), copyPage, if_neg (haway _ hlow)]
  · change clearPage ((s.protect page true).writeSlot _ page).memory _ x = _
    rw [clearPage, if_neg (haway page hpage), writeSlot]
    split
    · rfl
    · rfl

section Claiming

variable {s : Paging} {c table f : Nat} (htabled : s.Tabled) (howned : s.Owned)
  (hcurrent : s.scheduler.current = some c) (htable : s.tableOf c = some table)
  (hf : f < memoryPages)

include htabled howned hcurrent htable hf

theorem claim_free (quiet : Prop) (hfree : s.masterTable f = false) :
    Gained quiet s (s.claim (table + f) f) c f := by
  have hvacant := (howned.framed.vacant hfree).1
  have habsent : s.place (c, f) = none := by
    cases hplace : s.place (c, f) with
    | none => rfl
    | some frame =>
        obtain rfl := howned.inPlace c hcurrent f frame hplace
        exact absurd hplace (hvacant _)
  have hmapped : Mapped s (s.claim (table + f) f) c f :=
    mapped_spec htabled.apart htable hf habsent hvacant howned.framed
      (fun _ => False.elim) (rewrites_protect (rewrites_mark (setCell_rewrites s _
        (page_lt_total hf)) f true) f true) rfl rfl
  refine
    { lt := hf
      rewrites := hmapped.rewrites
      owned := hmapped.owned hcurrent (howned.inPlace c hcurrent)
      absent := habsent
      placed := hmapped.placed
      access := Function.update_self _ _ _
      kept := fun q hq => hmapped.kept _ fun heq => hq (Prod.mk.inj heq).2
      logical := ?_
      outside := ?_
      lasts := ?_
      opened := fun k _ hopen => update_open hopen
      closed := fun k hne hclosed => (Function.update_of_ne hne _ _).trans hclosed
      marks := ⟨f, rfl, Or.inl ⟨rfl, hfree⟩⟩
      content := fun _ _ _ => rfl
      beyond := fun _ _ => rfl }
  · intro key hkey
    rw [logicalMemory, logicalMemory, Memory.logical, Memory.logical, hmapped.kept key hkey]
    rfl
  · intro cell hdead
    have hne : cell ≠ table + f := fun heq => hdead ⟨c, table, f, htable, hf, heq⟩
    exact Function.update_of_ne hne _ _
  · intro _ k hk hlast j last hlast' hcell
    change Function.update s.cells (table + f) f (last + lastPage) = k at hcell
    rcases Classical.em (last + lastPage = table + f) with heq | hne
    · rw [heq, Function.update_self] at hcell
      exact hk hcell.symm
    · rw [Function.update_of_ne hne] at hcell
      exact hlast j last hlast' hcell

theorem claim_taken {quiet : Prop} {mid : Paging} {t other q : Nat} (hloud : ¬ quiet)
    (habsent : s.place (c, f) = none) (hother : s.tableOf t = some other)
    (hq : q < memoryPages) (hcell : s.cells (other + q) = f)
    (hstored : ∀ frame, s.nextFreePage = some frame →
      frame < memoryPages ∨ s.fileOpen = true)
    (h : s.rehome f (other + q) = some mid) :
    Gained quiet s (mid.claim (table + f) f) c f := by
  obtain ⟨a, hrehomed⟩ := rehome_spec h
  obtain ⟨⟨frame, after⟩, hout, heq⟩ := Option.bind_eq_some_iff.mp h
  obtain rfl := Option.some.inj heq
  obtain rfl : frame = a :=
    Option.some.inj ((swapOut_tables hout).1.symm.trans hrehomed.free)
  have hmoves := hrehomed.moves htabled.apart howned.framed hother hq hcell
    (lt_unmapped (page_lt_total hf))
  have hown : (c, f) ≠ (t, q) := by
    intro heq
    rw [heq, hmoves.source] at habsent
    cases habsent
  have hothers : t ≠ c := by
    rintro rfl
    obtain rfl := howned.inPlace _ hcurrent _ _ hmoves.source
    exact hown rfl
  have hfile := hstored frame hrehomed.free
  obtain ⟨-, hfree, -⟩ := nextFreePage_spec hrehomed.free
  generalize hmid : (after.setCell (other + q) frame).mark frame true = mid at *
  have haccess : mid.accessible = after.accessible := by
    rw [← hmid]
    rfl
  have hmemory : mid.memory = after.memory := by
    rw [← hmid]
    rfl
  have hmapped : Mapped mid (mid.claim (table + f) f) c f :=
    mapped_spec (hrehomed.rewrites.apart htabled.apart)
      (hrehomed.rewrites.tableOf ▸ htable) hf ((hmoves.kept _ hown).trans habsent)
      ((hmoves.vacant_iff howned.framed.separate f).mpr (Or.inl rfl))
      (hrehomed.framed howned.framed hmoves) (fun k hk => hk.resolve_left id)
      (rewrites_protect (rewrites_mark (setCell_rewrites mid _ (page_lt_total hf)) f true)
        f true) rfl rfl
  have hplaces : ∀ key, key ≠ (c, f) → key ≠ (t, q) →
      (mid.claim (table + f) f).place key = s.place key := fun key hkey hmoved =>
    (hmapped.kept key hkey).trans (hmoves.kept key hmoved)
  have hused : s.masterTable f = true := howned.framed.used_of_place hmoves.source
  refine
    { lt := hf
      rewrites := hrehomed.rewrites.trans hmapped.rewrites
      owned := hmapped.owned (hrehomed.rewrites.scheduler ▸ hcurrent) ?_
      absent := habsent
      placed := hmapped.placed
      access := Function.update_self _ _ _
      kept := ?_
      logical := ?_
      outside := ?_
      lasts := ?_
      opened := ?_
      closed := ?_
      marks := ⟨frame, ?_, Or.inr ⟨hloud, hrehomed.free⟩⟩
      content := ?_
      beyond := ?_ }
  · intro p g hplace
    rw [hmoves.kept _ fun heq => hothers (Prod.mk.inj heq).1.symm] at hplace
    exact howned.inPlace c hcurrent p g hplace
  · intro p hp
    exact hplaces _ (fun heq => hp (Prod.mk.inj heq).2)
      fun heq => hothers (Prod.mk.inj heq).1.symm
  · intro key hkey
    rw [← hrehomed.logicalMemory howned.framed.separate hmoves hf hfile]
    rw [logicalMemory, logicalMemory, Memory.logical, Memory.logical, hmapped.kept key hkey]
    rfl
  · intro cell hdead
    have hne : cell ≠ table + f := fun heq => hdead ⟨c, table, f, htable, hf, heq⟩
    have hne' : cell ≠ other + q := fun heq => hdead ⟨t, other, q, hother, hq, heq⟩
    change Function.update mid.cells (table + f) f cell = _
    rw [Function.update_of_ne hne, hrehomed.cells, Function.update_of_ne hne']
  · intro hlast k hk hnot j last hslot hnamed
    have hslot' : s.pageTables j = some last :=
      (congrFun hrehomed.pageTables j).symm.trans hslot
    change Function.update mid.cells (table + f) f (last + lastPage) = k at hnamed
    rcases Classical.em (last + lastPage = table + f) with heq | hne
    · rw [heq, Function.update_self] at hnamed
      exact hk hnamed.symm
    · rw [Function.update_of_ne hne, hrehomed.cells] at hnamed
      rcases Classical.em (last + lastPage = other + q) with heq' | hne'
      · exact hlast hused j last hslot' (heq'.symm ▸ hcell)
      · rw [Function.update_of_ne hne'] at hnamed
        exact hnot j last hslot' hnamed
  · intro k hk hopen
    apply update_open
    change mid.accessible k = true
    rw [haccess]
    refine swapOut_open hout ?_ hopen
    rintro rfl
    rw [hfree] at hk
    cases hk
  · intro k hk hclosed
    change Function.update mid.accessible f true k = false
    rw [Function.update_of_ne hk, haccess]
    exact swapOut_closed hout hk hclosed
  · change Function.update mid.masterTable f true = _
    rw [hrehomed.masterTable, Function.update_eq_self_iff]
    exact (update_open hused).symm
  · intro k hk hstill
    have hkf : k ≠ f := by
      rintro rfl
      rw [hk] at hused
      cases hused
    have hka : k ≠ frame := by
      rintro rfl
      have hfalse := hstill.resolve_right hkf
      have htrue : (mid.claim (table + f) f).masterTable k = true := by
        apply update_open
        change mid.masterTable k = true
        rw [hrehomed.masterTable]
        exact Function.update_self _ _ _
      rw [htrue] at hfalse
      cases hfalse
    exact (hrehomed.content hf hmoves.ne hfile).2 k hkf hka
  · intro x hx
    change mid.memory x = _
    rw [hmemory]
    exact swapOut_beyond hout hf hx

end Claiming

def Own (s : Paging) (c k : Nat) : Prop :=
  s.place (c, k) = some k ∧ s.accessible k = true

def Reserved (s : Paging) (quiet : Prop) (n k : Nat) : Prop :=
  s.masterTable k = false ∧ (quiet ∨ k ∉ landing s.masterTable n)

def Ready (s : Paging) (quiet : Prop) (c n k : Nat) : Prop :=
  s.Own c k ∨ s.place (c, k) = none ∧ (s.Reserved quiet n k ∨ ¬ quiet ∧ s.StaleFree k)

/-- There are `n` free frames, also for pages that move after the swap file was closed. -/
structure Roomy (s : Paging) (n : Nat) : Prop where
  enough : n ≤ s.freeFrames.card
  stored : ∀ frame ∈ landing s.masterTable n, frame < memoryPages ∨ s.fileOpen = true

theorem Roomy.first {s : Paging} {n : Nat} (h : s.Roomy (n + 1)) :
    (∃ frame, s.nextFreePage = some frame) ∧ ∀ frame, s.nextFreePage = some frame →
      frame < memoryPages ∨ s.fileOpen = true := by
  refine ⟨nextFreePage_of_free (Nat.lt_of_lt_of_le (Nat.succ_pos n) h.enough), ?_⟩
  intro frame hframe
  apply h.stored frame
  rw [landing_succ hframe]
  exact List.mem_cons_self

namespace Gained

variable {quiet : Prop} {s next : Paging} {c f n k : Nat}

theorem own (h : Gained quiet s next c f) (hframed : Framed s.place s.masterTable fun _ => False)
    (hown : s.Own c k) : next.Own c k := by
  have hne : k ≠ f := by
    rintro rfl
    have habsent := h.absent
    rw [hown.1] at habsent
    cases habsent
  exact ⟨(h.kept k hne).trans hown.1, h.opened k (hframed.used_of_place hown.1) hown.2⟩

theorem reserved (h : Gained quiet s next c f) (hne : k ≠ f)
    (hk : s.Reserved quiet (n + 1) k) : next.Reserved quiet n k := by
  obtain ⟨a, hmaster, hcase⟩ := h.marks
  have hka : k ≠ a := by
    rcases hcase with ⟨rfl, -⟩ | ⟨hloud, hfree⟩
    · exact hne
    · rintro rfl
      apply hk.2.resolve_left hloud
      rw [landing_succ hfree]
      exact List.mem_cons_self
  refine ⟨?_, hk.2.imp_right fun hout hmem => hout ?_⟩
  · rw [hmaster, Function.update_of_ne hka]
    exact hk.1
  · rw [hmaster] at hmem
    exact landing_update a n hmem

theorem staleFree (h : Gained quiet s next c f) (hk : s.StaleFree k) : next.StaleFree k := by
  intro j table i htable hi hcell
  rw [h.rewrites.pageTables] at htable
  rw [h.rewrites.liveCell]
  refine Classical.not_not.mp fun hdead => hdead (hk j table i htable hi ?_)
  rw [← h.outside _ hdead]
  exact hcell

theorem ready (h : Gained quiet s next c f) (hframed : Framed s.place s.masterTable fun _ => False)
    (hk : s.Ready quiet c (n + 1) k) : next.Ready quiet c n k := by
  rcases Classical.em (k = f) with rfl | hne
  · exact Or.inl ⟨h.placed, h.access⟩
  · rcases hk with hown | ⟨habsent, hcase⟩
    · exact Or.inl (h.own hframed hown)
    · exact Or.inr ⟨(h.kept k hne).trans habsent,
        hcase.imp (h.reserved hne) fun hstale => ⟨hstale.1, h.staleFree hstale.2⟩⟩

theorem roomy (h : Gained quiet s next c f) (hroomy : s.Roomy (n + 1)) : next.Roomy n := by
  obtain ⟨a, hmaster, -⟩ := h.marks
  refine ⟨?_, fun frame hmem => ?_⟩
  · exact Nat.le_of_succ_le_succ (hroomy.enough.trans (freeFrames_update hmaster))
  · rw [hmaster] at hmem
    rw [h.rewrites.fileOpen]
    exact hroomy.stored frame (landing_update a n hmem)

theorem content_own (h : Gained quiet s next c f) (hplace : s.place (c, k) = some k) :
    next.content k = s.content k := by
  have hne : k ≠ f := by
    rintro rfl
    have habsent := h.absent
    rw [hplace] at habsent
    cases habsent
  have hlogical := h.logical (c, k) fun heq => hne (Prod.mk.inj heq).2
  rw [logicalMemory, logicalMemory, Memory.logical, Memory.logical, h.kept k hne, hplace,
    Option.map_some, Option.map_some] at hlogical
  exact Option.some.inj hlogical

theorem content_reserved (h : Gained quiet s next c f) (hk : s.Reserved quiet (n + 1) k) :
    next.content k = s.content k := by
  apply h.content k hk.1
  rcases Classical.em (k = f) with heq | hne
  · exact Or.inr heq
  · exact Or.inl (h.reserved hne hk).1

end Gained

/-- Where no last entry names the frame, the search ends at an entry before them. -/
theorem scanTables_taken {s next : Paging} {currentTable f : Nat}
    (hlasts : s.LastFree f) (hstale : s.StaleFree f) (n : Nat) : ∀ {i : Nat},
    scanTables currentTable f s i n = some next →
      ∃ cell, s.LiveCell cell ∧ s.cells cell = f ∧
        ∃ mid, s.takeFrame currentTable f cell = some mid ∧ next = mid.protect f true := by
  induction n with
  | zero => exact nofun
  | succ n ih =>
      intro i h
      obtain ⟨table, htable, hrest⟩ := Option.bind_eq_some_iff.mp h
      obtain ⟨found, hscan, hthen⟩ := Option.bind_eq_some_iff.mp hrest
      cases found with
      | found j =>
          obtain ⟨-, hj, hcell⟩ := scanEntries_found memoryPages hscan
          obtain ⟨mid, hmid, heq⟩ := Option.bind_eq_some_iff.mp hthen
          exact ⟨table + j, hstale i table j htable (by omega) hcell, hcell, mid, hmid,
            (Option.some.inj heq).symm⟩
      | ended =>
          have hne : ¬ s.cells (table + (memoryPages - 1)) = f := hlasts i table htable
          dsimp only at hthen
          rw [if_neg hne] at hthen
          exact ih hthen

/-- What `seg_handler` does to the frame, `myallocate` does as well. -/
theorem takeFrame_rehomes {s mid : Paging} {currentTable f cell : Nat}
    (h : s.takeFrame currentTable f cell = some mid) :
    ∃ after, s.rehome f cell = some after ∧
      mid.protect f true = after.claim (currentTable + f) f := by
  obtain ⟨⟨frame, after⟩, hout, heq⟩ := Option.bind_eq_some_iff.mp h
  refine ⟨(after.setCell cell frame).mark frame true, ?_, ?_⟩
  · rw [rehome, hout]
    rfl
  · have hmaster : Function.update (Function.update (Function.update after.masterTable f false)
        frame true) f true = Function.update (Function.update after.masterTable frame true)
        f true := by
      funext k
      rcases Classical.em (k = f) with rfl | hne
      · rw [Function.update_self, Function.update_self]
      · rw [Function.update_of_ne hne, Function.update_of_ne hne]
        rcases Classical.em (k = frame) with rfl | hne'
        · rw [Function.update_self, Function.update_self]
        · rw [Function.update_of_ne hne', Function.update_of_ne hne', Function.update_of_ne hne]
    rw [← Option.some.inj heq]
    simp only [claim, mark, setCell, protect, hmaster]

section Growing

variable {s next : Paging} {quiet : Prop} {c table n f : Nat} (htabled : s.Tabled)
  (howned : s.Owned) (hcurrent : s.scheduler.current = some c)
  (htable : s.tableOf c = some table) (hf : f < memoryPages)
  (hready : s.Ready quiet c (n + 1) f) (hroomy : quiet ∨ s.Roomy (n + 1))

include htabled howned hcurrent htable hf hready hroomy

theorem mapPage_gained (h : s.mapPage table f = some next) :
    next = s ∧ s.Own c f ∨ Gained quiet s next c f := by
  obtain ⟨-, ⟨-, hcell, rfl⟩ | ⟨mid, hmid, rfl⟩⟩ := mapPage_cases h
  · left
    have hplace : next.place (c, f) = some f :=
      place_eq_some.mpr ⟨table, htable, hf, hcell, lt_unmapped (page_lt_total hf)⟩
    rcases hready with hown | ⟨habsent, -⟩
    · exact ⟨rfl, hown⟩
    · rw [hplace] at habsent
      cases habsent
  · right
    rcases hmid with ⟨hused, hcell, hevict⟩ | ⟨hfree, rfl⟩
    · have hout : ¬ s.Own c f := by
        intro hown
        obtain ⟨other, hother, -, hnamed, -⟩ := place_eq_some.mp hown.1
        obtain rfl := Option.some.inj (htable.symm.trans hother)
        exact hcell hnamed
      obtain ⟨habsent, hcase⟩ := hready.resolve_left hout
      obtain ⟨hloud, hstale⟩ := hcase.resolve_left fun hreserved => by
        rw [hreserved.1] at hused
        cases hused
      obtain ⟨⟨frame, hframe⟩, hstored⟩ := (hroomy.resolve_left hloud).first
      obtain ⟨⟨t, q⟩, hplace⟩ := exists_of_not_vacant
        (((howned.framed.marks f).mp hused).resolve_right id)
      obtain ⟨other, hother, hq, hnamed, -⟩ := place_eq_some.mp hplace
      have hcount := evictFrom_ends maxThreads htabled.slots (Nat.zero_le _) hevict
      obtain ⟨mid', hevict', hrehome⟩ := evict_moves howned.framed hf htabled.slots
        (by omega) (fun _ _ => htabled.lt) hstale (by rw [hframe]; nofun) hother hq hnamed
      obtain rfl := Option.some.inj (hevict'.symm.trans hevict)
      exact claim_taken htabled howned hcurrent htable hf hloud habsent hother hq hnamed
        hstored hrehome
    · exact claim_free htabled howned hcurrent htable hf quiet hfree

theorem segHandler_gained (hclosed : s.accessible f = false)
    (hlasts : s.masterTable f = true → s.LastFree f) (h : s.segHandler f = some next) :
    Gained quiet s next c f := by
  have hout : ¬ s.Own c f := fun hown => by
    rw [hown.2] at hclosed
    cases hclosed
  obtain ⟨habsent, hcase⟩ := hready.resolve_left hout
  rw [segHandler_eq hcurrent htable] at h
  split at h
  · next hfree =>
      obtain rfl := Option.some.inj h
      exact claim_free htabled howned hcurrent htable hf quiet hfree
  · next hused =>
      obtain ⟨hloud, hstale⟩ := hcase.resolve_left fun hreserved => hused hreserved.1
      obtain ⟨cell, hlive, hcell, mid, htake, rfl⟩ :=
        scanTables_taken (hlasts (by simpa using hused)) hstale maxThreads h
      obtain ⟨t, other, q, hother, hq, rfl, -⟩ :=
        place_of_liveCell hlive hcell (lt_unmapped (page_lt_total hf))
      obtain ⟨after, hrehome, heq⟩ := takeFrame_rehomes htake
      rw [heq]
      exact claim_taken htabled howned hcurrent htable hf hloud habsent hother hq hcell
        (hroomy.resolve_left hloud).first.2 hrehome

end Growing

end RutgersOS.Assignment2.Paging
