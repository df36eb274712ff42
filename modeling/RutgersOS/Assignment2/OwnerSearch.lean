import RutgersOS.Assignment2.Invisibility

namespace RutgersOS.Assignment2.Paging

open RutgersOS.Memory RutgersOS.Pthread

/-! What the tables of joined threads do to the searches: a call ignores them if it
comes out the same whatever their entries are, and leaves these as they are. -/

open Classical in
/-- The state with other entries in the cells that are not `live`. -/
noncomputable def overlay (live : Nat → Prop) (other : Nat → Nat) (s : Paging) : Paging :=
  { s with cells := fun cell => if live cell then s.cells cell else other cell }

def Ignores (call : Paging → Option Paging) (s : Paging) : Prop :=
  ∀ other, call (s.overlay s.LiveCell other) = (call s).map (overlay s.LiveCell other)

section Overlay

variable {live : Nat → Prop} {other : Nat → Nat}

def LiveTable (live : Nat → Prop) (table : Nat) : Prop :=
  ∀ q, q < memoryPages → live (table + q)

theorem overlay_cells {s : Paging} {cell : Nat} (h : live cell) :
    (s.overlay live other).cells cell = s.cells cell :=
  if_pos h

theorem overlay_setCell {s : Paging} {cell : Nat} (h : live cell) (value : Nat) :
    (s.overlay live other).setCell cell value = (s.setCell cell value).overlay live other := by
  have hcells : Function.update (s.overlay live other).cells cell value =
      ((s.setCell cell value).overlay live other).cells := by
    funext k
    rcases Classical.em (k = cell) with rfl | hne
    · rw [Function.update_self, overlay_cells h]
      exact (Function.update_self k value s.cells).symm
    · rw [Function.update_of_ne hne, overlay, overlay, setCell]
      dsimp only
      rw [Function.update_of_ne hne]
  rw [setCell, hcells]
  rfl

theorem overlay_readSlot (s : Paging) (slot des : Nat) :
    (s.overlay live other).readSlot slot des = (s.readSlot slot des).overlay live other := by
  unfold readSlot
  change (if s.fileOpen then _ else _) = _
  split
  · rfl
  · rfl

theorem overlay_writeSlot (s : Paging) (slot page : Nat) :
    (s.overlay live other).writeSlot slot page =
      (s.writeSlot slot page).overlay live other := by
  unfold writeSlot
  change (if s.fileOpen then _ else _) = _
  split
  · rfl
  · rfl

theorem overlay_swapOut (s : Paging) (page : Nat) :
    (s.overlay live other).swapOut page =
      (s.swapOut page).map fun result => (result.1, result.2.overlay live other) := by
  unfold swapOut
  change (s.nextFreePage).bind _ = Option.map _ ((s.nextFreePage).bind _)
  cases s.nextFreePage with
  | none => rfl
  | some frame =>
      dsimp only [Option.bind_some, Option.map_some]
      split
      · rfl
      · have hwrite : ((s.overlay live other).protect page true).writeSlot
            (frame - memoryPages) page =
              ((s.protect page true).writeSlot (frame - memoryPages) page).overlay live
                other :=
          overlay_writeSlot (s.protect page true) _ _
        rw [hwrite]
        rfl

theorem overlay_swapIn (s : Paging) (newPage des : Nat) :
    (s.overlay live other).swapIn newPage des = (s.swapIn newPage des).overlay live other := by
  unfold swapIn
  dsimp only
  split
  · rfl
  · split
    · have hread : ((s.overlay live other).protect des true).readSlot
          (newPage - memoryPages) des =
            ((s.protect des true).readSlot (newPage - memoryPages) des).overlay live other :=
        overlay_readSlot (s.protect des true) _ _
      rw [hread]
      rfl
    · rfl

theorem overlay_rehome {s : Paging} {page cell : Nat} (h : live cell) :
    (s.overlay live other).rehome page cell =
      (s.rehome page cell).map (overlay live other) := by
  unfold rehome
  rw [overlay_swapOut]
  cases s.swapOut page with
  | none => rfl
  | some result =>
      change some (((result.2.overlay live other).setCell cell result.1).mark result.1 true) = _
      rw [overlay_setCell h]
      rfl

section Table

variable {table : Nat} (htable : LiveTable live table)

include htable

theorem overlay_swapOutPages (n : Nat) : ∀ {s : Paging} {i : Nat}, i + n ≤ memoryPages →
    swapOutPages table (s.overlay live other) i n =
      (swapOutPages table s i n).map fun result => (result.1, result.2.overlay live other) := by
  induction n with
  | zero => exact fun _ => rfl
  | succ n ih =>
      intro s i hi
      have hlive := htable i (by omega)
      rw [swapOutPages, swapOutPages, overlay_cells hlive]
      split
      · rfl
      · rw [overlay_rehome hlive]
        cases s.rehome i (table + i) with
        | none => rfl
        | some mid => exact ih (by omega)

theorem overlay_switchOut (s : Paging) : (s.overlay live other).switchOut table =
    (s.switchOut table).map (overlay live other) := by
  unfold switchOut
  rw [overlay_swapOutPages htable memoryPages (Nat.le_of_eq (Nat.zero_add _))]
  cases swapOutPages table s 0 memoryPages with
  | none => rfl
  | some result =>
      change ((result.2.overlay live other).swapOut (memoryPages - 1)).bind _ =
        Option.map _ ((result.2.swapOut (memoryPages - 1)).bind _)
      rw [overlay_swapOut]
      cases result.2.swapOut (memoryPages - 1) with
      | none => rfl
      | some moved =>
          have hcell : ((moved.2.mark (memoryPages - 1) false).overlay live other).setCell
              (table + (memoryPages - 1)) moved.1 =
                ((moved.2.mark (memoryPages - 1) false).setCell
                  (table + (memoryPages - 1)) moved.1).overlay live other :=
            overlay_setCell (htable lastPage lastPage_lt) _
          change some ((((((moved.2.mark (memoryPages - 1) false).overlay live other).setCell
            (table + (memoryPages - 1)) moved.1).mark moved.1 true)).unmarkBelow result.1) = _
          rw [hcell]
          rfl

theorem overlay_bringIn {evict : Paging → Option Paging} {s : Paging} {i : Nat}
    (hi : i < memoryPages)
    (hevict : s.cells (table + i) ≠ i → evict (s.overlay live other) =
      (evict s).map (overlay live other)) :
    (s.overlay live other).bringIn evict table i =
      (s.bringIn evict table i).map (overlay live other) := by
  have hlive := htable i hi
  unfold bringIn
  rw [overlay_cells hlive]
  dsimp only
  split
  · next haway =>
      rw [hevict haway]
      cases evict s with
      | none => rfl
      | some mid =>
          change some ((((((mid.overlay live other).swapIn
            ((mid.overlay live other).cells (table + i)) i).mark
              ((mid.overlay live other).cells (table + i)) false).setCell
                (table + i) i)).mark i true) = _
          rw [overlay_cells hlive, overlay_swapIn]
          change some (((((mid.swapIn (mid.cells (table + i)) i).mark (mid.cells (table + i))
            false).overlay live other).setCell (table + i) i).mark i true) = _
          rw [overlay_setCell hlive]
          rfl
  · change some (((s.overlay live other).setCell (table + i) i).mark i true) = _
    rw [overlay_setCell hlive]
    rfl

theorem overlay_bringInPages {evict : Nat → Paging → Option Paging} {slots : Nat → Option Nat}
    (hpages : ∀ i s mid, evict i s = some mid → mid.pageTables = s.pageTables)
    (hevict : ∀ i s, s.pageTables = slots →
      evict i (s.overlay live other) = (evict i s).map (overlay live other)) (n : Nat) :
    ∀ {s : Paging} {i : Nat}, s.pageTables = slots → i + n ≤ memoryPages →
      bringInPages evict table (s.overlay live other) i n =
        (bringInPages evict table s i n).map (overlay live other) := by
  induction n with
  | zero => exact fun _ _ => rfl
  | succ n ih =>
      intro s i hslots hi
      rw [bringInPages, bringInPages, overlay_cells (htable i (by omega))]
      split
      · rfl
      · rw [overlay_bringIn htable (by omega) fun _ => hevict i s hslots]
        cases hnext : s.bringIn (evict i) table i with
        | none => rfl
        | some next =>
            refine ih ?_ (by omega)
            rcases bringIn_spec hnext with ⟨-, rfl⟩ | ⟨-, mid, hmid, hfetched⟩
            · exact hslots
            · exact (hfetched.pageTables.trans (hpages i s mid hmid)).trans hslots

end Table

theorem bringIn_inPlace_eq {evict evict' : Paging → Option Paging} {s : Paging}
    {table i : Nat} (h : s.cells (table + i) = i) :
    s.bringIn evict table i = s.bringIn evict' table i := by
  unfold bringIn
  dsimp only
  rw [if_neg fun hne => hne h, if_neg fun hne => hne h]

theorem bringInPages_inPlace_eq {evict evict' : Nat → Paging → Option Paging}
    {table stop : Nat} (n : Nat) : ∀ {s : Paging} {i : Nat},
      (∀ k, k < stop → s.cells (table + k) = k) → s.cells (table + stop) = unmapped →
        i ≤ stop → bringInPages evict table s i n = bringInPages evict' table s i n := by
  induction n with
  | zero => exact fun _ _ _ => rfl
  | succ n ih =>
      intro s i hplaced hended hle
      rw [bringInPages, bringInPages]
      rcases Nat.lt_or_eq_of_le hle with hmore | rfl
      · have hcell := hplaced i hmore
        have hfirst : s.bringIn (evict i) table i = s.bringIn (evict' i) table i :=
          bringIn_inPlace_eq hcell
        rw [hfirst]
        split
        · rfl
        · have hbring : s.bringIn (evict' i) table i =
              some ((s.setCell (table + i) i).mark i true) := by
            rw [bringIn, if_neg fun hne => hne hcell]
            rfl
          have hsame : ((s.setCell (table + i) i).mark i true).cells = s.cells := by
            change Function.update s.cells (table + i) i = s.cells
            rw [Function.update_eq_self_iff]
            exact hcell.symm
          rw [hbring]
          exact ih (hsame ▸ hplaced) (hsame ▸ hended) hmore
      · rw [if_pos hended, if_pos hended]

theorem overlay_evictEntry {table frame : Nat} (htable : LiveTable live table) {s : Paging}
    (n : Nat) : ∀ {k : Nat}, k + n ≤ memoryPages →
      evictEntry frame table (s.overlay live other) k n =
        (evictEntry frame table s k n).map (overlay live other) := by
  induction n with
  | zero => exact fun _ => rfl
  | succ n ih =>
      intro k hk
      have hlive := htable k (by omega)
      rw [evictEntry, evictEntry, overlay_cells hlive]
      split
      · exact overlay_rehome hlive
      · exact ih (by omega)

/-- No search reads a table of a joined thread if there is none. -/
theorem overlay_evictFrom {frame : Nat} (n : Nat) : ∀ {s : Paging} {j : Nat},
    (∀ i table, s.pageTables i = some table → LiveTable live table) →
      evictFrom frame (s.overlay live other) j n =
        (evictFrom frame s j n).map (overlay live other) := by
  induction n with
  | zero => exact fun _ => rfl
  | succ n ih =>
      intro s j hlive
      have hslots : (s.overlay live other).pageTables = s.pageTables := rfl
      rw [evictFrom, evictFrom, hslots]
      cases htable : s.pageTables j with
      | none => rfl
      | some table =>
          dsimp only
          rw [overlay_evictEntry (hlive j table htable) memoryPages
            (Nat.le_of_eq (Nat.zero_add memoryPages))]
          cases hnext : evictEntry frame table s 0 memoryPages with
          | none => rfl
          | some next =>
              refine ih ?_
              have hrewrites : next.pageTables = s.pageTables := by
                rcases evictEntry_cases frame table s memoryPages 0 with
                  ⟨-, hsame⟩ | ⟨i, -, -, -, hrehome⟩
                · rw [Option.some.inj (hsame.symm.trans hnext)]
                · exact (rehome_rewrites (hrehome.symm.trans hnext)).pageTables
              rw [hrewrites]
              exact hlive

theorem overlay_evictLastFrom {s : Paging}
    (hlive : ∀ i table, s.pageTables i = some table →
      (∀ m, m < i → ∀ before, s.pageTables m = some before →
        s.cells (before + lastPage) ≠ lastPage) → LiveTable live table) (n : Nat) :
    ∀ {j : Nat}, (∀ m, m < j → ∀ before, s.pageTables m = some before →
        s.cells (before + lastPage) ≠ lastPage) →
      evictLastFrom (s.overlay live other) j n =
        (evictLastFrom s j n).map (overlay live other) := by
  induction n with
  | zero => exact fun _ => rfl
  | succ n ih =>
      intro j hnone
      have hslots : (s.overlay live other).pageTables = s.pageTables := rfl
      rw [evictLastFrom, evictLastFrom, hslots]
      cases htable : s.pageTables j with
      | none => rfl
      | some table =>
          dsimp only
          have hcell := hlive j table htable hnone lastPage lastPage_lt
          change (if (s.overlay live other).cells (table + lastPage) = lastPage then
            (s.overlay live other).rehome lastPage (table + lastPage) else _) =
              Option.map _ (if s.cells (table + lastPage) = lastPage then
                s.rehome lastPage (table + lastPage) else _)
          rw [overlay_cells hcell]
          split
          · exact overlay_rehome hcell
          · next hne =>
              refine ih fun m hm before hbefore => ?_
              rcases Nat.lt_or_eq_of_le (Nat.le_of_lt_succ hm) with hlt | rfl
              · exact hnone m hlt before hbefore
              · rwa [← Option.some.inj (htable.symm.trans hbefore)]

theorem overlay_scanEntries {table offset : Nat} (htable : LiveTable live table) {s : Paging}
    (n : Nat) : ∀ {j : Nat}, j + n ≤ memoryPages →
      scanEntries offset table (s.overlay live other) j n =
        scanEntries offset table s j n := by
  induction n with
  | zero => exact fun _ => rfl
  | succ n ih =>
      intro j hj
      rw [scanEntries, scanEntries, overlay_cells (htable j (by omega)), ih (by omega)]

theorem overlay_takeFrame {currentTable offset cell : Nat} {s : Paging} (hcell : live cell)
    (hown : live (currentTable + offset)) :
    (s.overlay live other).takeFrame currentTable offset cell =
      (s.takeFrame currentTable offset cell).map (overlay live other) := by
  unfold takeFrame
  rw [overlay_swapOut]
  cases s.swapOut offset with
  | none => rfl
  | some moved =>
      change some ((((((moved.2.mark offset false).overlay live other).setCell cell
        moved.1).mark moved.1 true).setCell (currentTable + offset) offset).mark offset
          true) = _
      rw [overlay_setCell hcell]
      change some (((((((moved.2.mark offset false).setCell cell moved.1).mark moved.1
        true).overlay live other).setCell (currentTable + offset) offset).mark offset
          true)) = _
      rw [overlay_setCell hown]
      rfl

theorem overlay_scanTables {currentTable offset : Nat} (hown : live (currentTable + offset))
    (n : Nat) : ∀ {s : Paging} {i : Nat},
      (∀ j table, s.pageTables j = some table → LiveTable live table) →
        scanTables currentTable offset (s.overlay live other) i n =
          (scanTables currentTable offset s i n).map (overlay live other) := by
  induction n with
  | zero => exact fun _ => rfl
  | succ n ih =>
      intro s i hlive
      rw [scanTables, scanTables]
      change (s.pageTables i).bind _ = Option.map _ ((s.pageTables i).bind _)
      cases htable : s.pageTables i with
      | none => rfl
      | some table =>
          have hentries := hlive i table htable
          change (scanEntries offset table (s.overlay live other) 0 memoryPages).bind _ =
            Option.map _ ((scanEntries offset table s 0 memoryPages).bind _)
          rw [overlay_scanEntries hentries memoryPages
            (Nat.le_of_eq (Nat.zero_add memoryPages))]
          cases hscan : scanEntries offset table s 0 memoryPages with
          | none => rfl
          | some result =>
              cases result with
              | found j =>
                  obtain ⟨-, hj, -⟩ := scanEntries_found memoryPages hscan
                  change ((s.overlay live other).takeFrame currentTable offset
                    (table + j)).bind _ = Option.map _ ((s.takeFrame currentTable offset
                      (table + j)).bind _)
                  rw [overlay_takeFrame (hentries j (by omega)) hown]
                  cases s.takeFrame currentTable offset (table + j) with
                  | none => rfl
                  | some mid => rfl
              | ended =>
                  have hlast := hentries lastPage lastPage_lt
                  have hcell : (s.overlay live other).cells (table + (memoryPages - 1)) =
                      s.cells (table + (memoryPages - 1)) := overlay_cells hlast
                  dsimp only [Option.bind_some]
                  rw [hcell]
                  split
                  · have htake : (s.overlay live other).takeFrame currentTable offset
                        (table + lastPage) = (s.takeFrame currentTable offset (table + lastPage)).map
                          (overlay live other) := overlay_takeFrame hlast hown
                    change ((s.overlay live other).takeFrame currentTable offset
                      (table + lastPage)).bind _ = Option.map _ ((s.takeFrame currentTable
                        offset (table + lastPage)).bind _)
                    rw [htake]
                    cases hmid : s.takeFrame currentTable offset (table + lastPage) with
                    | none => rfl
                    | some mid =>
                        refine ih ?_
                        obtain ⟨frame, after, hreleased, rfl⟩ := takeFrame_cases hmid
                        change ∀ j table, after.pageTables j = some table → _
                        rw [hreleased.pageTables]
                        exact hlive
                  · exact ih hlive

end Overlay

end RutgersOS.Assignment2.Paging
