import RutgersOS.Assignment2.Eviction
import RutgersOS.Assignment2.Turns

namespace RutgersOS.Assignment2.Paging

/-! What every call keeps of the tables, whatever it does to the frames: the page
moves write nothing to them but frames. -/

theorem rehome_rewrites {s next : Paging} {page cell : Nat}
    (h : s.rehome page cell = some next) : Rewrites s next := by
  obtain ⟨frame, hrehomed⟩ := rehome_spec h
  exact hrehomed.rewrites

theorem rewrites_mark {s next : Paging} (h : Rewrites s next) (frame : Nat) (used : Bool) :
    Rewrites s (next.mark frame used) :=
  ⟨h.scheduler, h.pageTables, h.fileOpen, h.cells⟩

theorem rewrites_protect {s next : Paging} (h : Rewrites s next) (frame : Nat)
    (access : Bool) : Rewrites s (next.protect frame access) :=
  ⟨h.scheduler, h.pageTables, h.fileOpen, h.cells⟩

theorem rewrites_setCell {s next : Paging} (h : Rewrites s next) (cell : Nat) {value : Nat}
    (hvalue : value < totalPages) : Rewrites s (next.setCell cell value) :=
  h.trans (setCell_rewrites next cell hvalue)

theorem swapOut_rewrites {s next : Paging} {page frame : Nat}
    (h : s.swapOut page = some (frame, next)) : Rewrites s next ∧ frame < totalPages := by
  obtain ⟨hfree, htables, -⟩ := swapOut_tables h
  exact ⟨.of_sameTables htables, (nextFreePage_spec hfree).1⟩

theorem swapOutPages_rewrites {table : Nat} (n : Nat) :
    ∀ {s next : Paging} {i storedi : Nat},
      swapOutPages table s i n = some (storedi, next) → Rewrites s next := by
  induction n with
  | zero => exact nofun
  | succ n ih =>
      intro s next i storedi h
      rw [swapOutPages] at h
      split at h
      · obtain ⟨-, rfl⟩ := Prod.mk.inj (Option.some.inj h)
        exact .refl s
      · obtain ⟨mid, hmid, hrest⟩ := Option.bind_eq_some_iff.mp h
        exact (rehome_rewrites hmid).trans (ih hrest)

theorem switchOut_rewrites {s next : Paging} {table : Nat}
    (h : s.switchOut table = some next) : Rewrites s next := by
  obtain ⟨⟨storedi, mid⟩, hmid, hrest⟩ := Option.bind_eq_some_iff.mp h
  obtain ⟨⟨frame, after⟩, hafter, heq⟩ := Option.bind_eq_some_iff.mp hrest
  obtain rfl := Option.some.inj heq
  obtain ⟨hout, hframe⟩ := swapOut_rewrites hafter
  have hmoved := rewrites_setCell
    (rewrites_mark ((swapOutPages_rewrites _ hmid).trans hout) lastPage false)
    (table + lastPage) hframe
  exact ⟨hmoved.scheduler, hmoved.pageTables, hmoved.fileOpen, hmoved.cells⟩

theorem bringIn_rewrites {evict : Paging → Option Paging} {s next : Paging}
    {table i : Nat} (hevict : ∀ mid, evict s = some mid → Rewrites s mid)
    (hi : i < memoryPages) (h : s.bringIn evict table i = some next) :
    Rewrites s next := by
  rcases bringIn_spec h with ⟨-, rfl⟩ | ⟨-, mid, hmid, hfetched⟩
  · exact rewrites_mark (setCell_rewrites s _ (page_lt_total hi)) i true
  · exact (hevict mid hmid).trans (hfetched.rewrites hi)

theorem bringInPages_rewrites {evict : Nat → Paging → Option Paging} {table : Nat}
    (hevict : ∀ i s mid, evict i s = some mid → Rewrites s mid) (n : Nat) :
    ∀ {s next : Paging} {i : Nat}, i + n ≤ memoryPages →
      bringInPages evict table s i n = some next → Rewrites s next := by
  induction n with
  | zero => exact fun _ => nofun
  | succ n ih =>
      intro s next i hi h
      rw [bringInPages] at h
      split at h
      · obtain rfl := Option.some.inj h
        exact .refl s
      · obtain ⟨mid, hmid, hrest⟩ := Option.bind_eq_some_iff.mp h
        exact (bringIn_rewrites (hevict i s) (by omega) hmid).trans
          (ih (by omega) hrest)

theorem evictFrom_rewrites {frame : Nat} (n : Nat) :
    ∀ {s next : Paging} {j : Nat}, evictFrom frame s j n = some next →
      Rewrites s next := by
  induction n with
  | zero => exact nofun
  | succ n ih =>
      intro s next j h
      rw [evictFrom] at h
      split at h
      · obtain rfl := Option.some.inj h
        exact .refl s
      · next table htable =>
          obtain ⟨mid, hmid, hrest⟩ := Option.bind_eq_some_iff.mp h
          apply Rewrites.trans _ (ih hrest)
          rcases evictEntry_cases frame table s memoryPages 0 with
            ⟨-, hsame⟩ | ⟨i, -, -, -, hrehome⟩
          · obtain rfl := Option.some.inj (hsame.symm.trans hmid)
            exact .refl s
          · exact rehome_rewrites (hrehome.symm.trans hmid)

theorem evictLastFrom_rewrites (n : Nat) :
    ∀ {s next : Paging} {j : Nat}, evictLastFrom s j n = some next →
      Rewrites s next := by
  induction n with
  | zero => exact nofun
  | succ n ih =>
      intro s next j h
      rw [evictLastFrom] at h
      split at h
      · obtain rfl := Option.some.inj h
        exact .refl s
      · split at h
        · exact rehome_rewrites h
        · exact ih h

theorem switchIn_rewrites {s next : Paging} {table : Nat}
    (h : s.switchIn table = some next) : Rewrites s next := by
  have hstay : ∀ s mid : Paging, some s = some mid → Rewrites s mid := by
    rintro s mid heq
    obtain rfl := Option.some.inj heq
    exact .refl s
  obtain ⟨mid, hmid, hrest⟩ := Option.bind_eq_some_iff.mp h
  exact (bringInPages_rewrites (fun _ => hstay) _ (Nat.le_of_eq (Nat.zero_add _))
    hmid).trans (bringIn_rewrites (hstay mid) lastPage_lt hrest)

theorem resumePages_rewrites {s next : Paging} {table : Nat}
    (h : s.resumePages table = some next) : Rewrites s next := by
  obtain ⟨mid, hmid, hrest⟩ := Option.bind_eq_some_iff.mp h
  exact (bringInPages_rewrites (fun _ _ _ => evictFrom_rewrites _) _
    (Nat.le_of_eq (Nat.zero_add _)) hmid).trans
      (bringIn_rewrites (fun _ => evictLastFrom_rewrites _) lastPage_lt hrest)

theorem switchPages_rewrites {s next : Paging} {switch : Switch}
    (h : s.switchPages switch = some next) : Rewrites s next := by
  cases switch with
  | stay =>
      obtain rfl := Option.some.inj h
      exact .refl s
  | resume u =>
      obtain ⟨table, -, hresume⟩ := Option.bind_eq_some_iff.mp h
      exact resumePages_rewrites hresume
  | swap t u =>
      obtain ⟨table, -, hrest⟩ := Option.bind_eq_some_iff.mp h
      obtain ⟨table', -, hswap⟩ := Option.bind_eq_some_iff.mp hrest
      obtain ⟨mid, hout, hin⟩ := Option.bind_eq_some_iff.mp hswap
      exact (switchOut_rewrites hout).trans (switchIn_rewrites hin)

theorem takeFrame_rewrites {s next : Paging} {currentTable offset cell : Nat}
    (hoffset : offset < totalPages)
    (h : s.takeFrame currentTable offset cell = some next) : Rewrites s next := by
  obtain ⟨⟨newAddr, after⟩, hafter, heq⟩ := Option.bind_eq_some_iff.mp h
  obtain rfl := Option.some.inj heq
  obtain ⟨hout, hnew⟩ := swapOut_rewrites hafter
  have hmoved := rewrites_setCell (rewrites_mark hout offset false) cell hnew
  exact rewrites_mark (rewrites_setCell (rewrites_mark hmoved newAddr true) _ hoffset)
    offset true

theorem scanTables_cases {s next : Paging} {currentTable offset i n : Nat}
    (h : scanTables currentTable offset s i (n + 1) = some next) :
    ∃ table, s.pageTables i = some table ∧
      ((∃ j mid, scanEntries offset table s 0 memoryPages = some (.found j) ∧
          s.takeFrame currentTable offset (table + j) = some mid ∧
          next = mid.protect offset true) ∨
        scanEntries offset table s 0 memoryPages = some .ended ∧
          ∃ mid, (s.cells (table + lastPage) = offset ∧
              s.takeFrame currentTable offset (table + lastPage) = some mid ∨
            s.cells (table + lastPage) ≠ offset ∧ s = mid) ∧
          scanTables currentTable offset mid (i + 1) n = some next) := by
  obtain ⟨table, htable, hscan⟩ := Option.bind_eq_some_iff.mp h
  obtain ⟨result, hresult, hrest⟩ := Option.bind_eq_some_iff.mp hscan
  refine ⟨table, htable, ?_⟩
  cases result with
  | found j =>
      left
      obtain ⟨mid, hmid, heq⟩ := Option.bind_eq_some_iff.mp hrest
      exact ⟨j, mid, hresult, hmid, (Option.some.inj heq).symm⟩
  | ended =>
      right
      refine ⟨hresult, ?_⟩
      dsimp only at hrest
      split at hrest
      · next heq =>
          obtain ⟨mid, hmid, hlater⟩ := Option.bind_eq_some_iff.mp hrest
          exact ⟨mid, Or.inl ⟨heq, hmid⟩, hlater⟩
      · next hne => exact ⟨s, Or.inr ⟨hne, rfl⟩, hrest⟩

theorem scanTables_rewrites {currentTable offset : Nat} (hoffset : offset < totalPages)
    (n : Nat) : ∀ {s next : Paging} {i : Nat},
      scanTables currentTable offset s i n = some next → Rewrites s next := by
  induction n with
  | zero => exact nofun
  | succ n ih =>
      intro s next i h
      obtain ⟨table, -, ⟨j, mid, -, hmid, rfl⟩ | ⟨-, mid, hmid, hrest⟩⟩ := scanTables_cases h
      · exact rewrites_protect (takeFrame_rewrites hoffset hmid) offset true
      · apply Rewrites.trans _ (ih hrest)
        rcases hmid with ⟨-, htake⟩ | ⟨-, rfl⟩
        · exact takeFrame_rewrites hoffset htake
        · exact .refl s

theorem segHandler_rewrites {s next : Paging} {offset : Nat}
    (hoffset : offset < totalPages) (h : s.segHandler offset = some next) :
    Rewrites s next := by
  obtain ⟨current, -, hcurrent⟩ := Option.bind_eq_some_iff.mp h
  obtain ⟨table, -, hrest⟩ := Option.bind_eq_some_iff.mp hcurrent
  split at hrest
  · obtain rfl := Option.some.inj hrest
    exact rewrites_mark (rewrites_setCell (rewrites_protect (.refl s) offset true) _
      hoffset) offset true
  · exact scanTables_rewrites hoffset _ hrest

theorem page_of_address {address : Int} (hlow : 0 ≤ address) (hhigh : address < usrSize) :
    (address / pageSize).toNat < memoryPages := by
  simp only [usrSize, pageSize, memoryPages] at hhigh ⊢
  omega

theorem page_of_touch {address : Int} (hlow : 0 ≤ address)
    (hhigh : address < usrSize + pageSize) : (address / pageSize).toNat ≤ memoryPages := by
  simp only [usrSize, pageSize, memoryPages] at hhigh ⊢
  omega

theorem touch_cases {s next : Paging} {address : Int} (h : s.touch address = some next) :
    0 ≤ address ∧ address < usrSize + pageSize ∧
      (s.accessible (address / pageSize).toNat = true ∧ next = s ∨
        s.accessible (address / pageSize).toNat = false ∧
          s.segHandler (address / pageSize).toNat = some next) := by
  unfold touch at h
  split at h
  · next hin =>
      refine ⟨hin.1, hin.2, ?_⟩
      unfold touchPage at h
      split at h
      · next hopen => exact Or.inl ⟨hopen, (Option.some.inj h).symm⟩
      · next hclosed => exact Or.inr ⟨Bool.not_eq_true _ ▸ hclosed, h⟩
  · cases h

theorem touch_rewrites {s next : Paging} {address : Int} (h : s.touch address = some next) :
    Rewrites s next := by
  obtain ⟨hlow, hhigh, ⟨-, rfl⟩ | ⟨-, hfault⟩⟩ := touch_cases h
  · exact .refl _
  · have hpage : (address / pageSize).toNat < totalPages :=
      Nat.lt_of_le_of_lt (page_of_touch hlow hhigh) (by decide)
    exact segHandler_rewrites hpage hfault

theorem touchWord_rewrites {s next : Paging} {address : Int}
    (h : s.touchWord address = some next) : Rewrites s next := by
  obtain ⟨mid, hmid, hrest⟩ := Option.bind_eq_some_iff.mp h
  exact (touch_rewrites hmid).trans (touch_rewrites hrest)

theorem mapPage_cases {s next : Paging} {currentTable i : Nat}
    (h : s.mapPage currentTable i = some next) :
    i < memoryPages ∧
      (s.masterTable i = true ∧ s.cells (currentTable + i) = i ∧ next = s ∨
        ∃ mid, (s.masterTable i = true ∧ s.cells (currentTable + i) ≠ i ∧
            evict i s = some mid ∨ s.masterTable i = false ∧ mid = s) ∧
          next = ((mid.setCell (currentTable + i) i).mark i true).protect i true) := by
  unfold mapPage at h
  split at h
  · next hi =>
      refine ⟨hi, ?_⟩
      split at h
      · next hplaced =>
          exact Or.inl ⟨hplaced.1, hplaced.2, (Option.some.inj h).symm⟩
      · next haway =>
          right
          dsimp only at h
          split at h
          · next hused =>
              obtain ⟨mid, hmid, heq⟩ := Option.bind_eq_some_iff.mp h
              exact ⟨mid, Or.inl ⟨hused, fun hcell => haway ⟨hused, hcell⟩, hmid⟩,
                (Option.some.inj heq).symm⟩
          · next hfree =>
              exact ⟨s, Or.inr ⟨Bool.not_eq_true _ ▸ hfree, rfl⟩, (Option.some.inj h).symm⟩
  · cases h

theorem mapPage_rewrites {s next : Paging} {currentTable i : Nat}
    (h : s.mapPage currentTable i = some next) : Rewrites s next := by
  obtain ⟨hi, ⟨-, -, rfl⟩ | ⟨mid, hmid, rfl⟩⟩ := mapPage_cases h
  · exact .refl _
  · have hevicted : Rewrites s mid := by
      rcases hmid with ⟨-, -, hevict⟩ | ⟨-, rfl⟩
      · exact evictFrom_rewrites _ hevict
      · exact .refl _
    exact rewrites_protect
      (rewrites_mark (rewrites_setCell hevicted _ (page_lt_total hi)) i true) i true

end RutgersOS.Assignment2.Paging
