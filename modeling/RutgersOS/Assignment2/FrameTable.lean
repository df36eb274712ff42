import RutgersOS.Memory.Placement
import RutgersOS.Assignment2.Paging

namespace RutgersOS.Assignment2.Paging

open RutgersOS.Memory

/-! Where the pages of the unjoined threads live, and what one page move does to
that.  A key is a thread and a page. -/

def tableOf (s : Paging) (t : Nat) : Option Nat :=
  if (s.scheduler.threads t).isSome then s.pageTables t else none

def place (s : Paging) (key : Nat × Nat) : Option Nat := do
  let table ← s.tableOf key.1
  if key.2 < memoryPages ∧ s.cells (table + key.2) ≠ unmapped then
    some (s.cells (table + key.2))
  else none

/-- The user memory of each thread, page by page. -/
def logicalMemory (s : Paging) : Nat × Nat → Option (Fin 4096 → UInt8) :=
  logical s.place s.content

def Apart (s : Paging) : Prop :=
  ∀ t u table other, s.tableOf t = some table → s.tableOf u = some other →
    t ≠ u → table + memoryPages ≤ other ∨ other + memoryPages ≤ table

theorem place_eq_some {s : Paging} {t q frame : Nat} :
    s.place (t, q) = some frame ↔ ∃ table, s.tableOf t = some table ∧
      q < memoryPages ∧ s.cells (table + q) = frame ∧ frame ≠ unmapped := by
  unfold place
  constructor
  · intro h
    obtain ⟨table, htable, hcell⟩ := Option.bind_eq_some_iff.mp h
    dsimp only at htable hcell
    split at hcell
    · next hmapped =>
        obtain rfl := Option.some.inj hcell
        exact ⟨table, htable, hmapped.1, rfl, hmapped.2⟩
    · cases hcell
  · rintro ⟨table, htable, hq, rfl, hframe⟩
    exact Option.bind_eq_some_iff.mpr ⟨table, htable, if_pos ⟨hq, hframe⟩⟩

theorem place_eq_none {s : Paging} {t q table : Nat} (htable : s.tableOf t = some table)
    (hq : q < memoryPages) :
    s.place (t, q) = none ↔ s.cells (table + q) = unmapped := by
  unfold place
  dsimp only
  rw [htable, Option.bind_eq_bind, Option.bind_some]
  split
  · next hmapped => exact iff_of_false nofun hmapped.2
  · next hunmapped =>
      exact iff_of_true rfl (Classical.not_not.mp fun hne => hunmapped ⟨hq, hne⟩)

theorem tableOf_congr {s next : Paging} (hscheduler : next.scheduler = s.scheduler)
    (hpageTables : next.pageTables = s.pageTables) : next.tableOf = s.tableOf := by
  funext t
  rw [tableOf, tableOf, hscheduler, hpageTables]

theorem place_congr {s next : Paging} (htable : next.tableOf = s.tableOf)
    (hcells : next.cells = s.cells) : next.place = s.place := by
  funext key
  rw [place, place, htable, hcells]

theorem SameTables.tableOf {s next : Paging} (h : SameTables s next) :
    next.tableOf = s.tableOf :=
  tableOf_congr h.scheduler h.pageTables

theorem SameTables.place {s next : Paging} (h : SameTables s next) :
    next.place = s.place :=
  place_congr h.tableOf h.cells

def LiveCell (s : Paging) (cell : Nat) : Prop :=
  ∃ t table q, s.tableOf t = some table ∧ q < memoryPages ∧ cell = table + q

section Cells

variable {s : Paging} (hapart : s.Apart) {t table q : Nat}
  (htable : s.tableOf t = some table) (hq : q < memoryPages)

include hapart htable hq

theorem cell_inj {u other k : Nat} (hother : s.tableOf u = some other)
    (hk : k < memoryPages) (heq : table + q = other + k) : (t, q) = (u, k) := by
  rcases Classical.em (t = u) with rfl | hne
  · obtain rfl := Option.some.inj (htable.symm.trans hother)
    exact Prod.ext rfl (Nat.add_left_cancel heq)
  · have hbounds := hapart t u table other htable hother hne
    omega

theorem place_setCell {next : Paging} (hsame : next.tableOf = s.tableOf) {value : Nat}
    (hcells : next.cells = Function.update s.cells (table + q) value) (key : Nat × Nat) :
    next.place key =
      if key = (t, q) then if value = unmapped then none else some value
      else s.place key := by
  obtain ⟨u, k⟩ := key
  unfold place
  dsimp only
  rw [hsame, hcells]
  rcases Classical.em ((u, k) = (t, q)) with heq | hne
  · obtain ⟨rfl, rfl⟩ := Prod.mk.inj heq
    rw [if_pos rfl, htable, Option.bind_eq_bind, Option.bind_some,
      Function.update_self]
    simp only [hq, true_and]
    rcases Classical.em (value = unmapped) with hvalue | hvalue
    · rw [if_pos hvalue, if_neg fun h => h hvalue]
    · rw [if_neg hvalue, if_pos hvalue]
  · rw [if_neg hne]
    cases hother : s.tableOf u with
    | none => rfl
    | some other =>
        simp only [Option.bind_eq_bind, Option.bind_some]
        rcases Nat.lt_or_ge k memoryPages with hk | hk
        · have hcell : other + k ≠ table + q := fun heq =>
            hne (cell_inj hapart htable hq hother hk heq.symm).symm
          rw [Function.update_of_ne hcell]
        · rw [if_neg fun h => Nat.not_lt.mpr hk h.1,
            if_neg fun h => Nat.not_lt.mpr hk h.1]

end Cells

structure Rewrites (s next : Paging) : Prop where
  scheduler : next.scheduler = s.scheduler
  pageTables : next.pageTables = s.pageTables
  fileOpen : next.fileOpen = s.fileOpen
  cells : ∀ cell, next.cells cell = s.cells cell ∨ next.cells cell < totalPages

namespace Rewrites

theorem refl (s : Paging) : Rewrites s s where
  scheduler := rfl
  pageTables := rfl
  fileOpen := rfl
  cells _ := Or.inl rfl

theorem trans {first second third : Paging} (h : Rewrites first second)
    (h' : Rewrites second third) : Rewrites first third where
  scheduler := h'.scheduler.trans h.scheduler
  pageTables := h'.pageTables.trans h.pageTables
  fileOpen := h'.fileOpen.trans h.fileOpen
  cells cell := by
    rcases h'.cells cell with heq | hlt
    · rw [heq]
      exact h.cells cell
    · exact Or.inr hlt

theorem tableOf {s next : Paging} (h : Rewrites s next) : next.tableOf = s.tableOf :=
  tableOf_congr h.scheduler h.pageTables

theorem liveCell {s next : Paging} (h : Rewrites s next) (cell : Nat) :
    next.LiveCell cell ↔ s.LiveCell cell := by
  rw [LiveCell, LiveCell, h.tableOf]

theorem mapped {s next : Paging} (h : Rewrites s next) {t q : Nat}
    (hmapped : s.place (t, q) ≠ none) : next.place (t, q) ≠ none := by
  obtain ⟨frame, hplace⟩ := Option.ne_none_iff_exists'.mp hmapped
  obtain ⟨table, htable, hq, hcell, hframe⟩ := place_eq_some.mp hplace
  rw [Ne, place_eq_none (h.tableOf ▸ htable) hq]
  rcases h.cells (table + q) with heq | hlt
  · rw [heq, hcell]
    exact hframe
  · exact Nat.ne_of_lt (Nat.lt_trans hlt (by decide))

theorem of_sameTables {s next : Paging} (h : SameTables s next) : Rewrites s next where
  scheduler := h.scheduler
  pageTables := h.pageTables
  fileOpen := h.fileOpen
  cells _ := by
    rw [h.cells]
    exact Or.inl rfl

theorem apart {s next : Paging} (h : Rewrites s next) (hapart : s.Apart) :
    next.Apart := by
  unfold Apart
  rw [h.tableOf]
  exact hapart

end Rewrites

theorem setCell_rewrites (s : Paging) (cell : Nat) {value : Nat} (h : value < totalPages) :
    Rewrites s (s.setCell cell value) where
  scheduler := rfl
  pageTables := rfl
  fileOpen := rfl
  cells other := by
    rcases Classical.em (other = cell) with rfl | hne
    · exact Or.inr (lt_of_eq_of_lt (Function.update_self _ _ _) h)
    · exact Or.inl (Function.update_of_ne hne _ _)

theorem nextFreePage_spec {s : Paging} {frame : Nat} (h : s.nextFreePage = some frame) :
    frame < totalPages ∧ s.masterTable frame = false ∧
      ∀ f, f < frame → s.masterTable f = true := by
  obtain ⟨-, hlt, hfree, hbelow⟩ := nextFree_spec totalPages h
  exact ⟨by omega, hfree, fun f hf => hbelow f (Nat.zero_le f) hf⟩

theorem nextFreePage_le {s : Paging} {frame f : Nat} (h : s.nextFreePage = some frame)
    (hfree : s.masterTable f = false) : frame ≤ f := by
  obtain ⟨-, -, hbelow⟩ := nextFreePage_spec h
  refine Nat.not_lt.mp fun hlt => ?_
  rw [hbelow f hlt] at hfree
  cases hfree

theorem nextFree_exists {masterTable : Nat → Bool} (n : Nat) :
    ∀ {i frame : Nat}, i ≤ frame → frame < i + n → masterTable frame = false →
      nextFree masterTable i n ≠ none := by
  induction n with
  | zero => exact fun hle hlt => absurd hlt (Nat.not_lt.mpr hle)
  | succ n ih =>
      intro i frame hle hlt hfree
      rw [nextFree]
      split
      · exact Option.some_ne_none i
      · next hused =>
          rcases Nat.lt_or_eq_of_le hle with hmore | rfl
          · exact ih hmore (by omega) hfree
          · exact absurd hfree hused

theorem nextFreePage_exists {s : Paging} {frame : Nat} (hlt : frame < totalPages)
    (hfree : s.masterTable frame = false) : s.nextFreePage ≠ none :=
  nextFree_exists totalPages (Nat.zero_le frame) (by omega) hfree

theorem lt_unmapped {frame : Nat} (h : frame < totalPages) : frame ≠ unmapped :=
  Nat.ne_of_lt (Nat.lt_trans h (by decide))

structure Relocated (s next : Paging) (page cell frame : Nat) : Prop where
  free : s.nextFreePage = some frame
  scheduler : next.scheduler = s.scheduler
  pageTables : next.pageTables = s.pageTables
  fileOpen : next.fileOpen = s.fileOpen
  cells : next.cells = Function.update s.cells cell frame
  content : page < memoryPages → frame ≠ page →
    frame < memoryPages ∨ s.fileOpen = true →
      next.content frame = s.content page ∧
        ∀ other, other ≠ page → other ≠ frame →
          next.content other = s.content other

structure Rehomed (s next : Paging) (page cell frame : Nat) : Prop extends
    Relocated s next page cell frame where
  masterTable : next.masterTable = Function.update s.masterTable frame true

structure Released (s next : Paging) (page cell frame : Nat) : Prop extends
    Relocated s next page cell frame where
  masterTable : next.masterTable =
    Function.update (Function.update s.masterTable page false) frame true

theorem rehome_spec {s next : Paging} {page cell : Nat}
    (h : s.rehome page cell = some next) : ∃ frame, Rehomed s next page cell frame := by
  obtain ⟨⟨frame, after⟩, hout, heq⟩ := Option.bind_eq_some_iff.mp h
  obtain rfl := Option.some.inj heq
  obtain ⟨hfree, htables, hmaster⟩ := swapOut_tables hout
  refine ⟨frame, ⟨hfree, htables.scheduler, htables.pageTables, htables.fileOpen, ?_,
    ?_⟩, ?_⟩
  · change Function.update after.cells cell frame = _
    rw [htables.cells]
  · intro hpage hne hfile
    have hcontent := swapOut_content hout hpage hne hfile
    exact hcontent
  · change Function.update after.masterTable frame true = _
    rw [hmaster]

theorem release_spec {s after : Paging} {page frame : Nat}
    (h : s.swapOut page = some (frame, after)) (cell : Nat) :
    Released s (((after.mark page false).setCell cell frame).mark frame true) page cell
      frame := by
  obtain ⟨hfree, htables, hmaster⟩ := swapOut_tables h
  refine ⟨⟨hfree, htables.scheduler, htables.pageTables, htables.fileOpen, ?_, ?_⟩, ?_⟩
  · change Function.update after.cells cell frame = _
    rw [htables.cells]
  · intro hpage hne hfile
    have hcontent := swapOut_content h hpage hne hfile
    exact hcontent
  · change Function.update (Function.update after.masterTable page false) frame true = _
    rw [hmaster]

theorem swapOut_returns {s : Paging} {frame : Nat} (h : s.nextFreePage = some frame)
    (page : Nat) : ∃ next, s.swapOut page = some (frame, next) := by
  rw [swapOut, h]
  exact ⟨_, rfl⟩

theorem rehome_returns {s : Paging} {frame : Nat} (h : s.nextFreePage = some frame)
    (page cell : Nat) :
    ∃ next, s.rehome page cell = some next ∧ Rehomed s next page cell frame := by
  obtain ⟨after, hout⟩ := swapOut_returns h page
  have hrehome : s.rehome page cell = some ((after.setCell cell frame).mark frame true) := by
    rw [rehome, hout]
    rfl
  obtain ⟨other, hrehomed⟩ := rehome_spec hrehome
  obtain rfl := Option.some.inj (hrehomed.free.symm.trans h)
  exact ⟨_, hrehome, hrehomed⟩

namespace Relocated

variable {s next : Paging} {page cell frame : Nat}

theorem rewrites (h : Relocated s next page cell frame) : Rewrites s next where
  scheduler := h.scheduler
  pageTables := h.pageTables
  fileOpen := h.fileOpen
  cells other := by
    rw [h.cells]
    exact (setCell_rewrites s cell (nextFreePage_spec h.free).1).cells other

variable {delayed : Nat → Prop} {t table q : Nat}

theorem moves (h : Relocated s next page (table + q) frame) (hapart : s.Apart)
    (hframed : Framed s.place s.masterTable delayed) (htable : s.tableOf t = some table)
    (hq : q < memoryPages) (hcell : s.cells (table + q) = page)
    (hpage : page ≠ unmapped) : Moves s.place next.place (t, q) page frame := by
  obtain ⟨hlt, hfree, -⟩ := nextFreePage_spec h.free
  have hplace := place_setCell hapart htable hq h.rewrites.tableOf h.cells
  refine ⟨place_eq_some.mpr ⟨table, htable, hq, hcell, hpage⟩,
    (hframed.vacant hfree).1, ?_, ?_⟩
  · rw [hplace, if_pos rfl, if_neg (lt_unmapped hlt)]
  · intro other hne
    rw [hplace, if_neg hne]

theorem logicalMemory (h : Relocated s next page (table + q) frame)
    (hseparate : Separate s.place)
    (hmoves : Moves s.place next.place (t, q) page frame) (hpage : page < memoryPages)
    (hfile : frame < memoryPages ∨ s.fileOpen = true) :
    next.logicalMemory = s.logicalMemory := by
  obtain ⟨hcopied, hkept⟩ := h.content hpage hmoves.ne hfile
  exact hmoves.logical hseparate hcopied hkept

end Relocated

theorem Rehomed.framed {s next : Paging} {page cell frame : Nat}
    {delayed : Nat → Prop} {key : Nat × Nat} (h : Rehomed s next page cell frame)
    (hframed : Framed s.place s.masterTable delayed)
    (hmoves : Moves s.place next.place key page frame) :
    Framed next.place next.masterTable (fun f => delayed f ∨ f = page) := by
  rw [h.masterTable]
  exact hmoves.framed_delay hframed

theorem Released.framed {s next : Paging} {page cell frame : Nat}
    {delayed : Nat → Prop} {key : Nat × Nat} (h : Released s next page cell frame)
    (hframed : Framed s.place s.masterTable delayed) (hpage : ¬ delayed page)
    (hmoves : Moves s.place next.place key page frame) :
    Framed next.place next.masterTable delayed := by
  rw [h.masterTable]
  apply (hmoves.framed_release hframed hpage).congr
  intro f
  obtain ⟨-, hfree, -⟩ := nextFreePage_spec h.free
  constructor
  · intro hd
    refine ⟨hd, ?_⟩
    rintro rfl
    exact (hframed.vacant hfree).2 hd
  · exact And.left

def Ranged (s : Paging) : Prop :=
  ∀ key frame, s.place key = some frame → frame < totalPages

theorem Rewrites.ranged {s next : Paging} (h : Rewrites s next) (hranged : s.Ranged) :
    next.Ranged := by
  rintro ⟨t, q⟩ frame hplace
  obtain ⟨table, htable, hq, hcell, hframe⟩ := place_eq_some.mp hplace
  rw [h.tableOf] at htable
  rcases h.cells (table + q) with heq | hlt
  · rw [heq] at hcell
    exact hranged (t, q) frame (place_eq_some.mpr ⟨table, htable, hq, hcell, hframe⟩)
  · exact hcell ▸ hlt

structure Fetched (s next : Paging) (cell i : Nat) : Prop where
  scheduler : next.scheduler = s.scheduler
  pageTables : next.pageTables = s.pageTables
  fileOpen : next.fileOpen = s.fileOpen
  cells : next.cells = Function.update s.cells cell i
  masterTable : next.masterTable =
    Function.update (Function.update s.masterTable (s.cells cell) false) i true
  content : i < memoryPages → s.cells cell ≠ i → s.cells cell < totalPages →
    s.cells cell < memoryPages ∨ s.fileOpen = true →
      next.content i = s.content (s.cells cell) ∧
        ∀ other, other ≠ s.cells cell → other ≠ i →
          next.content other = s.content other

theorem bringIn_spec {evict : Paging → Option Paging} {s next : Paging}
    {table i : Nat} (h : s.bringIn evict table i = some next) :
    s.cells (table + i) = i ∧ next = (s.setCell (table + i) i).mark i true ∨
      s.cells (table + i) ≠ i ∧ ∃ mid, evict s = some mid ∧
        Fetched mid next (table + i) i := by
  unfold bringIn at h
  split at h
  · next hne =>
      right
      refine ⟨hne, ?_⟩
      obtain ⟨mid, hmid, heq⟩ := Option.bind_eq_some_iff.mp h
      obtain rfl := Option.some.inj heq
      obtain ⟨htables, hmaster⟩ := swapIn_tables mid (mid.cells (table + i)) i
      refine ⟨mid, hmid, htables.scheduler, htables.pageTables, htables.fileOpen, ?_,
        ?_, ?_⟩
      · change Function.update (mid.swapIn _ i).cells _ _ = _
        rw [htables.cells]
      · change Function.update (Function.update (mid.swapIn _ i).masterTable _ _) _ _ = _
        rw [hmaster]
      · intro hi hpage hlt hfile
        have hcontent := swapIn_content mid hi hpage hlt hfile
        exact hcontent
  · next heq =>
      left
      exact ⟨Classical.not_not.mp heq, (Option.some.inj h).symm⟩

namespace Fetched

variable {s next : Paging} {table i t : Nat}

theorem rewrites {cell : Nat} (h : Fetched s next cell i) (hi : i < memoryPages) :
    Rewrites s next where
  scheduler := h.scheduler
  pageTables := h.pageTables
  fileOpen := h.fileOpen
  cells other := by
    rw [h.cells]
    exact (setCell_rewrites s cell (Nat.lt_trans hi (by decide))).cells other

theorem moves (h : Fetched s next (table + i) i) (hapart : s.Apart)
    (htable : s.tableOf t = some table) (hi : i < memoryPages)
    (hmapped : s.cells (table + i) ≠ unmapped) (hvacant : Vacant s.place i) :
    Moves s.place next.place (t, i) (s.cells (table + i)) i := by
  have hplace := place_setCell hapart htable hi (h.rewrites hi).tableOf h.cells
  refine ⟨place_eq_some.mpr ⟨table, htable, hi, rfl, hmapped⟩, hvacant, ?_, ?_⟩
  · rw [hplace, if_pos rfl, if_neg (lt_unmapped (Nat.lt_trans hi (by decide)))]
  · intro other hne
    rw [hplace, if_neg hne]

theorem framed (h : Fetched s next (table + i) i)
    (hmoves : Moves s.place next.place (t, i) (s.cells (table + i)) i)
    {delayed : Nat → Prop} (hframed : Framed s.place s.masterTable delayed)
    (hdelayed : ∀ frame, delayed frame → frame = i) :
    Framed next.place next.masterTable (fun _ => False) := by
  rw [h.masterTable]
  have hsource : ¬ delayed (s.cells (table + i)) := fun hd =>
    hmoves.ne (hdelayed _ hd).symm
  apply (hmoves.framed_release hframed hsource).congr
  intro frame
  exact iff_of_false id fun hd => hd.2 (hdelayed frame hd.1)

theorem logicalMemory (h : Fetched s next (table + i) i)
    (hmoves : Moves s.place next.place (t, i) (s.cells (table + i)) i)
    (hseparate : Separate s.place) (hranged : s.Ranged) (hi : i < memoryPages)
    (hfile : s.cells (table + i) < memoryPages ∨ s.fileOpen = true) :
    next.logicalMemory = s.logicalMemory := by
  obtain ⟨hcopied, hkept⟩ := h.content hi hmoves.ne.symm
    (hranged _ _ hmoves.source) hfile
  exact hmoves.logical hseparate hcopied hkept

end Fetched

theorem bringIn_inPlace {s next : Paging} {table i t : Nat}
    (hframed : Framed s.place s.masterTable (fun _ => False))
    (htable : s.tableOf t = some table) (hi : i < memoryPages)
    (hcell : s.cells (table + i) = i)
    (h : next = (s.setCell (table + i) i).mark i true) :
    next.place = s.place ∧ next.masterTable = s.masterTable ∧
      next.content = s.content ∧ Rewrites s next := by
  have hcells : Function.update s.cells (table + i) i = s.cells := by
    rw [Function.update_eq_self_iff]
    exact hcell.symm
  have hplaced : s.place (t, i) = some i := place_eq_some.mpr
    ⟨table, htable, hi, hcell, lt_unmapped (Nat.lt_trans hi (by decide))⟩
  have hmaster : Function.update s.masterTable i true = s.masterTable := by
    rw [Function.update_eq_self_iff]
    exact (hframed.used_of_place hplaced).symm
  subst h
  refine ⟨place_congr rfl hcells, hmaster, rfl, rfl, rfl, rfl, ?_⟩
  intro cell
  exact Or.inl (congrFun hcells cell)

end RutgersOS.Assignment2.Paging
