import RutgersOS.Assignment2.Yielding

namespace RutgersOS.Assignment2.Paging

open RutgersOS.Memory RutgersOS.Pthread

/-- The first entry that `seg_handler` finds is of an unjoined thread, and is not
the last of its table. -/
def Findable (s : Paging) (frame : Nat) : Prop :=
  ∃ i table j, s.pageTables i = some table ∧
    scanEntries frame table s 0 memoryPages = some (.found j) ∧ s.LiveCell (table + j) ∧
    ∀ i', i' < i → ∀ other, s.pageTables i' = some other →
      scanEntries frame other s 0 memoryPages = some .ended ∧
        s.cells (other + lastPage) ≠ frame

/-- The page behind the user region is in no table, so that it must not fault. -/
def FaultSafe (s : Paging) (page : Nat) : Prop :=
  s.accessible page = true ∨ page < memoryPages ∧
    (∀ c, s.scheduler.current = some c → s.place (c, page) = none) ∧
      (s.masterTable page = true → s.Findable page)

def AccessSafe (s : Paging) (address : Int) : Prop :=
  0 ≤ address → address < usrSize + pageSize → s.FaultSafe (address / pageSize).toNat

structure Mapped (s next : Paging) (c f : Nat) : Prop where
  rewrites : Rewrites s next
  placed : next.place (c, f) = some f
  kept : ∀ key, key ≠ (c, f) → next.place key = s.place key
  framed : Framed next.place next.masterTable (fun _ => False)

theorem mapped_spec {s next : Paging} {c table f : Nat} {delayed : Nat → Prop}
    (hapart : s.Apart) (htable : s.tableOf c = some table) (hf : f < memoryPages)
    (habsent : s.place (c, f) = none) (hvacant : Vacant s.place f)
    (hframed : Framed s.place s.masterTable delayed)
    (hdelayed : ∀ frame, delayed frame → frame = f) (hrewrites : Rewrites s next)
    (hcells : next.cells = Function.update s.cells (table + f) f)
    (hmaster : next.masterTable = Function.update s.masterTable f true) :
    Mapped s next c f := by
  have hplace := place_setCell hapart htable hf hrewrites.tableOf hcells
  have happears : Appears s.place next.place (c, f) f := by
    refine ⟨habsent, hvacant, ?_, ?_⟩
    · rw [hplace, if_pos rfl, if_neg (lt_unmapped (page_lt_total hf))]
    · intro key hne
      rw [hplace, if_neg hne]
  refine ⟨hrewrites, happears.placed, happears.kept, ?_⟩
  rw [hmaster]
  apply (happears.framed hframed).congr
  intro frame
  exact iff_of_false id fun hin => hin.2 (hdelayed frame hin.1)

theorem Mapped.owned {s next : Paging} {c f : Nat} (h : Mapped s next c f)
    (hcurrent : s.scheduler.current = some c)
    (hinPlace : ∀ q frame, s.place (c, q) = some frame → frame = q) : next.Owned := by
  refine ⟨h.framed, ?_⟩
  intro other hother q frame hplace
  rw [h.rewrites.scheduler] at hother
  obtain rfl := Option.some.inj (hcurrent.symm.trans hother)
  rcases Classical.em (q = f) with rfl | hne
  · exact Option.some.inj (hplace.symm.trans h.placed)
  · rw [h.kept _ fun heq => hne (Prod.mk.inj heq).2] at hplace
    exact hinPlace q frame hplace

structure Taken (s next : Paging) (c f t q frame : Nat) : Prop where
  free : s.nextFreePage = some frame
  rewrites : Rewrites s next
  placed : next.place (c, f) = some f
  moved : next.place (t, q) = some frame
  kept : ∀ key, key ≠ (c, f) → key ≠ (t, q) → next.place key = s.place key
  framed : Framed next.place next.masterTable (fun _ => False)
  content : frame < memoryPages ∨ s.fileOpen = true →
    next.content frame = s.content f ∧
      ∀ other, other ≠ f → other ≠ frame → next.content other = s.content other

theorem takeFrame_cases {s next : Paging} {currentTable offset cell : Nat}
    (h : s.takeFrame currentTable offset cell = some next) :
    ∃ frame mid, Released s mid offset cell frame ∧
      next = (mid.setCell (currentTable + offset) offset).mark offset true := by
  obtain ⟨⟨frame, after⟩, hout, heq⟩ := Option.bind_eq_some_iff.mp h
  exact ⟨frame, _, release_spec hout cell, (Option.some.inj heq).symm⟩

theorem takeFrame_spec {s next : Paging} {c table : Nat} (htabled : s.Tabled)
    (htable : s.tableOf c = some table)
    (hframed : Framed s.place s.masterTable (fun _ => False)) {t other q f : Nat}
    (hf : f < memoryPages) (habsent : s.place (c, f) = none) (hother : s.tableOf t = some other)
    (hq : q < memoryPages) (hcell : s.cells (other + q) = f)
    (h : s.takeFrame table f (other + q) = some next) :
    ∃ frame, Taken s next c f t q frame := by
  obtain ⟨frame, mid, hreleased, rfl⟩ := takeFrame_cases h
  have hmoves := hreleased.moves htabled.apart hframed hother hq hcell
    (lt_unmapped (page_lt_total hf))
  have hne : (c, f) ≠ (t, q) := by
    intro heq
    rw [heq, hmoves.source] at habsent
    cases habsent
  have hmapped : Mapped mid ((mid.setCell (table + f) f).mark f true) c f :=
    mapped_spec (hreleased.rewrites.apart htabled.apart)
      (hreleased.rewrites.tableOf ▸ htable) hf ((hmoves.kept _ hne).trans habsent)
      ((hmoves.vacant_iff hframed.separate f).mpr (Or.inl rfl))
      (hreleased.framed hframed id hmoves) (fun _ => False.elim)
      (rewrites_mark (setCell_rewrites mid _ (page_lt_total hf)) f true) rfl rfl
  refine ⟨frame,
    { free := hreleased.free
      rewrites := hreleased.rewrites.trans hmapped.rewrites
      placed := hmapped.placed
      moved := (hmapped.kept _ hne.symm).trans hmoves.moved
      kept := ?_
      framed := hmapped.framed
      content := hreleased.content hf hmoves.ne }⟩
  intro key hown hmoved
  exact (hmapped.kept key hown).trans (hmoves.kept key hmoved)

theorem scanTables_found {s : Paging} {currentTable f i table j : Nat}
    (hslots : ∀ k, k < i → s.pageTables k ≠ none) (hslot : s.pageTables i = some table)
    (hscan : scanEntries f table s 0 memoryPages = some (.found j))
    (hbefore : ∀ i', i' < i → ∀ other, s.pageTables i' = some other →
      scanEntries f other s 0 memoryPages = some .ended ∧
        s.cells (other + lastPage) ≠ f) (n : Nat) :
    ∀ {k : Nat}, k ≤ i → i < k + n → scanTables currentTable f s k n =
      (s.takeFrame currentTable f (table + j)).bind fun mid =>
        some (mid.protect f true) := by
  induction n with
  | zero => omega
  | succ n ih =>
      intro k hle hlt
      rcases Nat.lt_or_eq_of_le hle with hmore | rfl
      · obtain ⟨other, hother⟩ := Option.ne_none_iff_exists'.mp (hslots k hmore)
        obtain ⟨hended, hne⟩ := hbefore k hmore other hother
        have hlast : ¬ s.cells (other + (memoryPages - 1)) = f := hne
        rw [scanTables, hother, Option.bind_eq_bind, Option.bind_some, hended,
          Option.bind_eq_bind, Option.bind_some]
        dsimp only
        rw [if_neg hlast]
        exact ih hmore (by omega)
      · rw [scanTables, hslot, Option.bind_eq_bind, Option.bind_some, hscan,
          Option.bind_eq_bind, Option.bind_some]
        rfl

theorem scanEntries_found {s : Paging} {f table j : Nat} (n : Nat) : ∀ {k : Nat},
    scanEntries f table s k n = some (.found j) →
      k ≤ j ∧ j < k + n ∧ s.cells (table + j) = f := by
  induction n with
  | zero => exact nofun
  | succ n ih =>
      intro k h
      rw [scanEntries] at h
      split at h
      · cases h
      · split at h
        · next heq =>
            cases h
            exact ⟨Nat.le_refl _, by omega, heq⟩
        · obtain ⟨hle, hlt, hcell⟩ := ih h
          exact ⟨by omega, by omega, hcell⟩

section Running

variable {s : Paging} {c table : Nat} (hcurrent : s.scheduler.current = some c)
  (htable : s.tableOf c = some table)

include hcurrent htable

theorem segHandler_eq (f : Nat) : s.segHandler f =
    if s.masterTable f = false then
      some (((s.protect f true).setCell (table + f) f).mark f true)
    else scanTables table f s 0 maxThreads := by
  rw [segHandler, hcurrent, Option.bind_eq_bind, Option.bind_some,
    pageTables_of_tableOf htable]
  rfl

variable (htabled : s.Tabled) (howned : s.Owned)

include htabled howned

structure Handled (s next : Paging) (c f : Nat) : Prop where
  rewrites : Rewrites s next
  placed : next.place (c, f) = some f
  marked : next.masterTable f = true
  access : next.accessible f = true
  rehomed : ∀ key, s.place key = some f → ∃ frame, s.nextFreePage = some frame ∧
    next.place key = some frame ∧
      (frame < memoryPages ∨ s.fileOpen = true → next.content frame = s.content f)
  kept : ∀ key, key ≠ (c, f) → s.place key ≠ some f → next.place key = s.place key
  owned : next.Owned

theorem segHandler_free {f : Nat} (hf : f < memoryPages) (hfree : s.masterTable f = false) :
    ∃ next, s.segHandler f = some next ∧ Handled s next c f := by
  refine ⟨((s.protect f true).setCell (table + f) f).mark f true, ?_, ?_⟩
  · rw [segHandler_eq hcurrent htable, if_pos hfree]
  · have hvacant := (howned.framed.vacant hfree).1
    have habsent : s.place (c, f) = none := by
      cases hplace : s.place (c, f) with
      | none => rfl
      | some frame =>
          obtain rfl := howned.inPlace c hcurrent f frame hplace
          exact absurd hplace (hvacant _)
    have hmapped : Mapped s (((s.protect f true).setCell (table + f) f).mark f true) c f :=
      mapped_spec htabled.apart htable hf habsent hvacant howned.framed
        (fun _ => False.elim) (rewrites_mark (rewrites_setCell (rewrites_protect (.refl s)
          f true) _ (page_lt_total hf)) f true) rfl rfl
    exact
      { rewrites := hmapped.rewrites
        placed := hmapped.placed
        marked := Function.update_self _ _ _
        access := Function.update_self _ _ _
        rehomed := fun key hkey => absurd hkey (hvacant key)
        kept := fun key hne _ => hmapped.kept key hne
        owned := hmapped.owned hcurrent (howned.inPlace c hcurrent) }

theorem segHandler_taken {f : Nat} (hf : f < memoryPages) (hused : s.masterTable f = true)
    (habsent : s.place (c, f) = none) (hfound : s.Findable f) :
    ∃ cell, s.segHandler f =
        (s.takeFrame table f cell).bind (fun mid => some (mid.protect f true)) ∧
      ∀ mid, s.takeFrame table f cell = some mid → Handled s (mid.protect f true) c f := by
  obtain ⟨i, other, j, hslot, hscan, hlive, hbefore⟩ := hfound
  obtain ⟨-, hj, hcell⟩ := scanEntries_found memoryPages hscan
  obtain ⟨t, owner, q, howner, hq, heq, hplace⟩ :=
    place_of_liveCell hlive hcell (lt_unmapped (page_lt_total hf))
  have hi : i < s.scheduler.threadIDS := by
    refine Nat.not_le.mp fun hle => ?_
    rw [htabled.beyond i hle] at hslot
    cases hslot
  have hslots : ∀ k, k < i → s.pageTables k ≠ none := fun k hk =>
    htabled.slots.below k (Nat.lt_trans hk hi)
  have hcount := htabled.count
  refine ⟨other + j, ?_, ?_⟩
  · rw [segHandler_eq hcurrent htable, if_neg (by rw [hused]; nofun)]
    exact scanTables_found hslots hslot hscan hbefore maxThreads (Nat.zero_le i) (by omega)
  · intro mid htake
    rw [heq] at htake hcell
    obtain ⟨frame, htaken⟩ := takeFrame_spec htabled htable howned.framed hf habsent howner
      hq hcell htake
    have hne : (c, f) ≠ (t, q) := by
      intro hsame
      rw [hsame, hplace] at habsent
      cases habsent
    refine
      { rewrites := rewrites_protect htaken.rewrites f true
        placed := htaken.placed
        marked := htaken.framed.used_of_place htaken.placed
        access := Function.update_self _ _ _
        rehomed := ?_
        kept := ?_
        owned := ⟨htaken.framed, ?_⟩ }
    · intro key hkey
      obtain rfl := howned.framed.separate _ _ _ hkey hplace
      exact ⟨frame, htaken.free, htaken.moved, fun hfile => (htaken.content hfile).1⟩
    · intro key hown hkey
      exact htaken.kept key hown fun hsame => hkey (hsame ▸ hplace)
    · intro other hother p g hpage
      change mid.scheduler.current = some other at hother
      rw [htaken.rewrites.scheduler] at hother
      obtain rfl := Option.some.inj (hcurrent.symm.trans hother)
      change mid.place (c, p) = some g at hpage
      rcases Classical.em ((c, p) = (c, f)) with hsame | hdiffers
      · rw [hsame, htaken.placed] at hpage
        rw [(Prod.mk.inj hsame).2]
        exact (Option.some.inj hpage).symm
      · have hmoved : (c, p) ≠ (t, q) := by
          rintro heq'
          obtain ⟨rfl, rfl⟩ := Prod.mk.inj heq'
          obtain rfl := howned.inPlace _ hcurrent _ _ hplace
          exact hne rfl
        rw [htaken.kept _ hdiffers hmoved] at hpage
        exact howned.inPlace c hcurrent p g hpage

/-- The handler returns if a frame is free for the page that it moves. -/
theorem segHandler_handled {f : Nat} (hf : f < memoryPages)
    (habsent : s.place (c, f) = none) (hfound : s.masterTable f = true → s.Findable f)
    (hfree : s.nextFreePage ≠ none) :
    ∃ next, s.segHandler f = some next ∧ Handled s next c f := by
  cases hused : s.masterTable f with
  | false => exact segHandler_free hcurrent htable htabled howned hf hused
  | true =>
      obtain ⟨cell, heq, hhandled⟩ := segHandler_taken hcurrent htable htabled howned hf
        hused habsent (hfound hused)
      obtain ⟨frame, hframe⟩ := Option.ne_none_iff_exists'.mp hfree
      obtain ⟨after, hout⟩ := swapOut_returns hframe f
      obtain ⟨mid, hmid⟩ : ∃ mid, s.takeFrame table f cell = some mid := by
        rw [takeFrame, hout]
        exact ⟨_, rfl⟩
      rw [hmid] at heq
      exact ⟨_, heq, hhandled mid hmid⟩

theorem segHandler_owned {next : Paging} {f : Nat} (hf : f < memoryPages)
    (habsent : s.place (c, f) = none) (hfound : s.masterTable f = true → s.Findable f)
    (h : s.segHandler f = some next) : next.Owned := by
  cases hused : s.masterTable f with
  | false =>
      obtain ⟨other, hother, hhandled⟩ := segHandler_free hcurrent htable htabled howned hf
        hused
      obtain rfl := Option.some.inj (hother.symm.trans h)
      exact hhandled.owned
  | true =>
      obtain ⟨cell, heq, hhandled⟩ := segHandler_taken hcurrent htable htabled howned hf
        hused habsent (hfound hused)
      obtain ⟨mid, hmid, rfl⟩ : ∃ mid, s.takeFrame table f cell = some mid ∧
          next = mid.protect f true := by
        obtain ⟨mid, hmid, hsome⟩ := Option.bind_eq_some_iff.mp (heq.symm.trans h)
        exact ⟨mid, hmid, (Option.some.inj hsome).symm⟩
      exact (hhandled mid hmid).owned

end Running

theorem touch_owned {s next : Paging} {c : Nat} {address : Int}
    (hcurrent : s.scheduler.current = some c) (hsteady : s.scheduler.Steady)
    (htabled : s.Tabled) (howned : s.Owned) (hsafe : s.AccessSafe address)
    (h : s.touch address = some next) : next.Owned := by
  obtain ⟨hlow, hhigh, ⟨-, rfl⟩ | ⟨hclosed, hfault⟩⟩ := touch_cases h
  · exact howned
  · rcases hsafe hlow hhigh with hopen | ⟨hf, habsent, hfound⟩
    · rw [hclosed] at hopen
      cases hopen
    · obtain ⟨table, htable, -⟩ := htabled.table (hsteady.current_alive hcurrent)
      exact segHandler_owned hcurrent htable htabled howned hf (habsent c hcurrent) hfound
        hfault

end RutgersOS.Assignment2.Paging
