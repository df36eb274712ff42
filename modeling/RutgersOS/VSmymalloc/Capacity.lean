import RutgersOS.VSmymalloc.Memgrind

namespace RutgersOS.VSmymalloc

open RutgersOS.Memory
open RutgersOS.Memory.BoundaryTag (Region)
open RutgersOS.VSmymalloc.Grind

/-- `k` allocations of `extent` bytes lie at the start of the arena, or no more fit. -/
inductive Filled (extent k : Nat) : List Block → Prop
  | room {left : List Block} {block : Block} (hleft : ∀ other ∈ left, other.allocated = true)
      (htotal : total left = k * extent) (hfree : block.allocated = false) :
      Filled extent k (left ++ [block])
  | full {blocks : List Block}
      (hsmall : ∀ block ∈ blocks, block.allocated = true ∨ (block.size : Int) < extent)
      (hk : 4992 / extent ≤ k) : Filled extent k blocks

theorem free_last {left right before : List Block} {block last : Block}
    (hblocks : before ++ [last] = left ++ [block] ++ right) (hfree : block.allocated = false)
    (hbefore : ∀ other ∈ before, other.allocated = true) :
    left = before ∧ block = last ∧ right = [] := by
  rcases List.eq_nil_or_concat right with rfl | ⟨front, final, rfl⟩
  · rw [List.append_nil] at hblocks
    obtain ⟨rfl, hlast⟩ := List.append_inj' hblocks rfl
    exact ⟨rfl, (List.singleton_inj.mp hlast).symm, rfl⟩
  · rw [List.concat_eq_append, ← List.append_assoc] at hblocks
    obtain ⟨rfl, -⟩ := List.append_inj' hblocks rfl
    have halloc := hbefore block (by simp)
    rw [hfree] at halloc
    cases halloc

theorem Filled.count_le {extent k : Nat} {blocks : List Block} (h : Filled extent k blocks)
    (hpositive : 0 < extent) (hextent : total blocks = 4992)
    (hsmall : ∀ block ∈ blocks, block.allocated = true ∨ (block.size : Int) < extent) :
    4992 / extent ≤ k := by
  cases h with
  | @room left block hleft htotal hfree =>
      have hlast := (hsmall block (by simp)).resolve_left (by rw [hfree]; decide)
      simp only [total_append, htotal, total_cons, total_nil] at hextent
      refine Nat.le_of_lt_succ ((Nat.div_lt_iff_lt_mul hpositive).mpr ?_)
      rw [Nat.succ_mul]
      omega
  | full _ hk => exact hk

theorem Filled.placed {extent k : Nat} {left right placed : List Block} {block : Block}
    (h : Filled extent k (left ++ [block] ++ right)) (hmin : 12 ≤ extent)
    (hextent : total (left ++ [block] ++ right) = 4992) (hfree : block.allocated = false)
    (hplaced : Placement extent block placed) :
    total left = k * extent ∧ k < 4992 / extent ∧
      Filled extent (k + 1) (left ++ placed ++ right) := by
  have hpositive : 0 < extent := by omega
  have hfit : extent ≤ block.size := by
    cases hplaced with
    | split _ _ hroom => omega
    | whole hfit _ => exact hfit
  generalize hblocks : left ++ [block] ++ right = blocks at h
  cases h with
  | @room before last hbefore htotal hlast =>
      obtain ⟨rfl, rfl, rfl⟩ := free_last hblocks.symm hfree hbefore
      simp only [total_append, total_cons, total_nil, htotal] at hextent
      have hk : k < 4992 / extent := by
        refine (Nat.le_div_iff_mul_le hpositive).mpr ?_
        rw [Nat.succ_mul]
        omega
      refine ⟨htotal, hk, ?_⟩
      cases hplaced with
      | split hmin halign hroom =>
          have hsplit : left ++ [Block.front extent hmin halign, block.rest extent halign hroom] =
              (left ++ [Block.front extent hmin halign]) ++
                [block.rest extent halign hroom] := by simp
          rw [List.append_nil, hsplit]
          apply Filled.room
          · intro other hother
            rcases List.mem_append.mp hother with hin | hin
            · exact hbefore other hin
            · obtain rfl := List.mem_singleton.mp hin
              rfl
          · rw [total_append, htotal, Nat.succ_mul]
            rfl
          · rfl
      | whole _ htight =>
          apply Filled.full
          · intro other hother
            rw [List.append_nil] at hother
            rcases List.mem_append.mp hother with hin | hin
            · exact Or.inl (hbefore other hin)
            · obtain rfl := List.mem_singleton.mp hin
              exact Or.inl rfl
          · refine Nat.le_of_lt_succ ((Nat.div_lt_iff_lt_mul hpositive).mpr ?_)
            rw [Nat.succ_mul, Nat.succ_mul]
            omega
  | full hsmall _ =>
      have hin : block ∈ blocks := by
        rw [← hblocks]
        simp
      rcases hsmall block hin with halloc | hless
      · rw [hfree] at halloc
        cases halloc
      · omega

theorem Filled.malloc {client : Client} {blocks : List Block} {size k : Nat}
    (h : Filled (extendedSize size) k blocks) (hlayout : client.Layout blocks)
    (hsize : size ≠ 0) (hfits : size ≤ 5000) :
    ∃ next ptr, client.step (.malloc size) = some next ∧
      mymalloc client.arena size = some (next.arena, ptr) ∧
      ptr = (if k < 4992 / extendedSize size then
        some ((8 + k * extendedSize size : Nat) : Int) else none) ∧
      ∃ after, next.Layout after ∧ Filled (extendedSize size) (k + 1) after := by
  have hmin := extendedSize_minimal hsize
  have hextent := hlayout.heap.extent
  rcases mymalloc_cases hlayout.heap.region hextent size with
    ⟨hnone, hcause⟩ | ⟨left, block, right, placed, rfl, hfree, -, hplaced, hsome⟩
  · rw [← mymalloc_heap] at hnone
    have hsmall := (hcause.resolve_left hsize).resolve_left (Nat.not_lt.mpr hfits)
    have hk := h.count_le (by omega) hextent hsmall
    refine ⟨⟨⟨client.arena.heap, true⟩, client.live⟩, none, ?_, hnone,
      (if_neg (Nat.not_lt.mpr hk)).symm, blocks,
      Client.layout_of_initialized rfl hlayout.heap, .full hsmall (Nat.le_succ_of_le hk)⟩
    rw [Client.step, hnone]
    rfl
  · rw [← mymalloc_heap] at hsome
    obtain ⟨htotal, hk, hfilled⟩ := h.placed hmin hextent hfree hplaced
    refine ⟨_, _, ?_, hsome, ?_, _,
      Client.layout_of_initialized rfl (hlayout.heap.malloc hfree hplaced), hfilled⟩
    · rw [Client.step, hsome]
      rfl
    · rw [if_pos hk, htotal]
      congr 1
      omega

theorem Filled.mallocs {size : Nat} (hsize : size ≠ 0) (hfits : size ≤ 5000) (n : Nat) :
    ∀ {g : Grind} {client : Client} {blocks : List Block}, client.arena = g.arena →
      client.Layout blocks → Filled (extendedSize size) g.mallocCount blocks →
        ∃ g', Grind.mallocs (fun _ => size) g n = some g' ∧
          (∀ i, i < g.mallocCount → g'.pointers i = g.pointers i) ∧
            ∀ i, g.mallocCount ≤ i → i < g.mallocCount + n → g'.pointers i =
              if i < 4992 / extendedSize size then
                some ((8 + i * extendedSize size : Nat) : Int) else none := by
  induction n with
  | zero => exact fun _ _ _ => ⟨_, rfl, fun _ _ => rfl, fun _ _ _ => by omega⟩
  | succ n ih =>
      intro g client blocks harena hlayout h
      obtain ⟨next, ptr, -, hmalloc, hptr, after, hafter, hfilled⟩ :=
        h.malloc hlayout hsize hfits
      obtain ⟨g', hg', hbefore, hrest⟩ := ih (g :=
        { g with
          arena := next.arena
          pointers := Function.update g.pointers g.mallocCount ptr
          mallocCount := g.mallocCount + 1 }) rfl hafter hfilled
      dsimp only at hbefore hrest
      refine ⟨g', ?_, ?_, ?_⟩
      · rw [Grind.mallocs, Grind.malloc, ← harena, hmalloc]
        exact hg'
      · intro i hi
        rw [hbefore i (by omega), Function.update_of_ne (by omega)]
      · intro i hlow hhigh
        rcases Nat.lt_or_eq_of_le hlow with hmore | rfl
        · exact hrest i hmore (by omega)
        · rw [hbefore _ (Nat.lt_succ_self _), Function.update_self, hptr]

/-- An arena in which nothing is live holds as many allocations of one size as fit with
their two tags, one behind the other; the calls of `mymalloc` after them return NULL. -/
theorem capacity {first : Client} (h : Client.Reachable first) (hlive : first.live = [])
    {size : Nat} (hsize : size ≠ 0) (hfits : size ≤ 5000) (n : Nat) :
    ∃ g, mallocs (fun _ => size) (start first.arena) n = some g ∧ ∀ i, i < n →
      g.pointers i = if i < 4992 / extendedSize size then
        some ((8 + i * extendedSize size : Nat) : Int) else none := by
  obtain ⟨blocks, hlayout⟩ := h.layout
  obtain rfl := hlayout.heap.eq_wholeArena hlive
  have hfilled : Filled (extendedSize size) 0 ([] ++ [wholeArena]) :=
    .room (fun other hother => absurd hother List.not_mem_nil) (Nat.zero_mul _).symm rfl
  obtain ⟨g, hg, -, hpointers⟩ :=
    Filled.mallocs hsize hfits n (g := start first.arena) rfl hlayout hfilled
  exact ⟨g, hg, fun i hi => hpointers i (Nat.zero_le i) (by
    change i < 0 + n
    omega)⟩

/-- `grindA` gets 416 of its 3000 bytes. -/
theorem capacity_grindA : ∃ g,
    mallocs (fun _ => 1) (start ⟨fun _ => 7, false⟩) 3000 = some g ∧
      ∀ i, i < 3000 → (g.pointers i = none ↔ 416 ≤ i) := by
  obtain ⟨g, hg, hpointers⟩ :=
    capacity (.uninitialised fun _ => 7) rfl Nat.one_ne_zero (by decide) 3000
  refine ⟨g, hg, fun i hi => ?_⟩
  have hcount : 4992 / extendedSize 1 = 416 := rfl
  rw [hpointers i hi, hcount]
  split
  · next hlt => exact iff_of_false (Option.some_ne_none _) (Nat.not_le.mpr hlt)
  · next hge => exact iff_of_true rfl (Nat.not_lt.mp hge)

end RutgersOS.VSmymalloc
