import Mathlib.Data.List.Nodup
import RutgersOS.VSmymalloc.Heap

namespace RutgersOS.VSmymalloc

open RutgersOS.Memory

namespace Client

def Sound (client : Client) : Prop :=
  client.arena.isInitialized = false ∧ client.live = [] ∨
    client.arena.isInitialized = true ∧ ∃ blocks, Heap client blocks

private theorem malloc_sound {client : Client} {blocks : List Block}
    (h : Heap client blocks) (hinit : client.arena.isInitialized = true)
    (size : Nat) :
    ∃ next, client.step (.malloc size) = some next ∧
      next.arena.isInitialized = true ∧ ∃ blocks, Heap next blocks := by
  obtain ⟨⟨myBlock, init⟩, live⟩ := client
  obtain rfl : init = true := hinit
  rcases mymalloc_cases h.region h.extent size with
    ⟨hnone, -⟩ | ⟨left, block, right, placed, rfl, hfree, -, hplaced, hsome⟩
  · refine ⟨⟨⟨myBlock, true⟩, live⟩, ?_, rfl, blocks, h⟩
    simp only [step, hnone, Option.map_some]
  · refine ⟨_, ?_, rfl, _, h.malloc hfree hplaced⟩
    simp only [step, hsome, Option.map_some]

theorem step_sound {client : Client} (h : client.Sound) {op : Op}
    (hallowed : client.Allowed op) :
    ∃ next, client.step op = some next ∧ next.Sound := by
  rcases h with ⟨hinit, hlive⟩ | ⟨hinit, blocks, heap⟩
  · cases op with
    | malloc size =>
        obtain ⟨⟨myBlock, init⟩, live⟩ := client
        obtain rfl : init = false := hinit
        obtain rfl : live = [] := hlive
        obtain ⟨next, hstep, hsound⟩ :=
          malloc_sound (initializeHeap_heap myBlock) rfl size
        refine ⟨next, ?_, Or.inr hsound⟩
        rw [← hstep]
        simp only [step, mymalloc_uninitialised]
    | free ptr =>
        cases ptr with
        | none => exact ⟨_, rfl, Or.inl ⟨hinit, by simp [hlive]⟩⟩
        | some p => simp [Allowed, Live, hlive] at hallowed
    | write p offset byte => simp [Allowed, hlive] at hallowed
  · cases op with
    | malloc size =>
        obtain ⟨next, hstep, hsound⟩ := malloc_sound heap hinit size
        exact ⟨next, hstep, Or.inr hsound⟩
    | free ptr =>
        cases ptr with
        | none =>
            refine ⟨client, ?_, Or.inr ⟨hinit, blocks, heap⟩⟩
            simp [step, myfree]
        | some p =>
            refine ⟨_, rfl, Or.inr ⟨hinit, ?_⟩⟩
            obtain ⟨left, block, right, rfl, -, rfl, hlow, hhigh⟩ :=
              heap.live_block hallowed
            have hmin := block.minimal
            rw [myfree_eq (by omega) (by omega)]
            exact ⟨_, heap.release client.arena.isInitialized⟩
    | write p offset byte =>
        obtain ⟨size, hmem, hoffset⟩ := hallowed
        exact ⟨_, rfl, Or.inr ⟨hinit, blocks, heap.write hmem hoffset byte⟩⟩

theorem Reachable.sound {client : Client} (h : Reachable client) :
    client.Sound := by
  induction h with
  | uninitialised myBlock => exact Or.inl ⟨rfl, rfl⟩
  | step op hreach hallowed hstep ih =>
      obtain ⟨next, hnext, hsound⟩ := step_sound ih hallowed
      obtain rfl := Option.some.inj (hstep.symm.trans hnext)
      exact hsound

theorem Reachable.returns {client : Client} (h : Reachable client) (op : Op)
    (hallowed : client.Allowed op) : ∃ next, client.step op = some next := by
  obtain ⟨next, hstep, -⟩ := step_sound h.sound hallowed
  exact ⟨next, hstep⟩

/-- Every `mymalloc` initialises the arena, also one that returns NULL, and nothing
else changes `isInitialized`. -/
theorem step_isInitialized {client next : Client} {op : Op}
    (hstep : client.step op = some next) : next.arena.isInitialized = true ↔
      client.arena.isInitialized = true ∨ ∃ size, op = .malloc size := by
  cases op with
  | malloc size =>
      obtain ⟨⟨arena, ptr⟩, hmalloc, rfl⟩ := Option.map_eq_some_iff.mp hstep
      exact iff_of_true (mymalloc_isInitialized hmalloc) (Or.inr ⟨size, rfl⟩)
  | free ptr =>
      obtain rfl := Option.some.inj hstep
      exact (or_iff_left nofun).symm
  | write p offset byte =>
      obtain rfl := Option.some.inj hstep
      exact (or_iff_left nofun).symm

theorem Reachable.heap {client : Client} (h : Reachable client)
    {p : Int} {size : Nat} (hmem : (p, size) ∈ client.live) :
    client.arena.isInitialized = true ∧ ∃ blocks, Heap client blocks := by
  rcases h.sound with ⟨-, hlive⟩ | hsound
  · simp [hlive] at hmem
  · exact hsound

end Client

open Client

/-- The representation invariant of the heap, in every reachable state: from
the first `mymalloc` on the arena is a prologue word, blocks with equal header
and footer words and no two free neighbours, and an epilogue word; the
allocated blocks are those of the live pointers; and every call returns. -/
theorem reachable_heap_wellformed {client : Client} (h : Reachable client) :
    (client.arena.isInitialized = true →
      client.arena.myBlock.load 0 = 1#32 ∧
      client.arena.myBlock.load 4996 = 1#32 ∧
      ∃ blocks, Tiles tagCodec client.arena.myBlock 4 blocks ∧
        4 + total blocks = 4996 ∧ NoAdjacentFree blocks ∧
        (∀ p, (allocatedAt 4 blocks p).isSome ↔ client.Live p) ∧
        (client.live = [] → blocks = [wholeArena])) ∧
    ∀ op, client.Allowed op → ∃ next, client.step op = some next ∧
      (next.arena.isInitialized = true ↔
        client.arena.isInitialized = true ∨ ∃ size, op = .malloc size) := by
  constructor
  · intro hinit
    rcases h.sound with ⟨huninit, -⟩ | ⟨-, blocks, heap⟩
    · rw [hinit] at huninit
      cases huninit
    · refine ⟨heap.prologue, heap.epilogue, blocks, heap.region.tiles, ?_,
        heap.merged, heap.live_iff, heap.eq_wholeArena⟩
      rw [heap.extent]
  · intro op hallowed
    obtain ⟨next, hstep⟩ := h.returns op hallowed
    exact ⟨next, hstep, step_isInitialized hstep⟩

theorem first_malloc :
    ∃ client, Client.step ⟨⟨fun _ => 0, false⟩, []⟩ (.malloc 8) = some client ∧
      Reachable client ∧ client.live = [(8, 8)] ∧
        client.arena.isInitialized = true := by
  obtain ⟨client, hstep⟩ : ∃ client,
      Client.step ⟨⟨fun _ => 0, false⟩, []⟩ (.malloc 8) = some client := ⟨_, rfl⟩
  refine ⟨client, hstep,
    .step (.malloc 8) (.uninitialised fun _ => 0) trivial hstep, ?_, ?_⟩
  · have hlive : (Client.step ⟨⟨fun _ => 0, false⟩, []⟩ (.malloc 8)).map
        Client.live = some [(8, 8)] := rfl
    rw [hstep] at hlive
    exact Option.some.inj hlive
  · have hinit : (Client.step ⟨⟨fun _ => 0, false⟩, []⟩ (.malloc 8)).map
        (fun client => client.arena.isInitialized) = some true := rfl
    rw [hstep] at hinit
    exact Option.some.inj hinit

theorem reachable_heap_wellformed_first_malloc :
    ∃ client, Client.step ⟨⟨fun _ => 0, false⟩, []⟩ (.malloc 8) = some client ∧
      client.live = [(8, 8)] ∧ client.arena.myBlock.load 0 = 1#32 ∧
      client.arena.myBlock.load 4996 = 1#32 ∧
      ∃ blocks, Tiles tagCodec client.arena.myBlock 4 blocks ∧
        4 + total blocks = 4996 ∧ NoAdjacentFree blocks ∧
        (∀ p, (allocatedAt 4 blocks p).isSome ↔ client.Live p) := by
  obtain ⟨client, hstep, hreach, hlive, hinit⟩ := first_malloc
  obtain ⟨hprologue, hepilogue, blocks, htiles, hextent, hmerged, hiff, -⟩ :=
    (reachable_heap_wellformed hreach).1 hinit
  exact ⟨client, hstep, hlive, hprologue, hepilogue, blocks, htiles, hextent,
    hmerged, hiff⟩

def Op.Spares (p : Int) : Op → Prop
  | .malloc _ => True
  | .free ptr => ptr ≠ some p
  | .write q _ _ => q ≠ p

namespace Heap

variable {client : Client} {blocks : List Block}

theorem payload_untagged (h : Heap client blocks) {p : Int} {size : Nat}
    (hmem : (p, size) ∈ client.live) {x : Int} (hlow : p ≤ x)
    (hhigh : x < p + size) : tagAt tagCodec 4 blocks (x - x % 4) = none := by
  obtain ⟨room, hroom, hsize⟩ := h.owned p size hmem
  have halign : 4 ∣ p := by
    obtain ⟨left, block, right, -, -, -, rfl⟩ := exists_block_of_allocatedAt hroom
    have := four_dvd_total left
    omega
  exact tagAt_payload tagCodec hroom (by omega) (by omega)

theorem payload_bounds (h : Heap client blocks) {p : Int} {size : Nat}
    (hmem : (p, size) ∈ client.live) :
    8 ≤ p ∧ p + size ≤ 4992 ∧ 4 ∣ p := by
  obtain ⟨room, hroom, hsize⟩ := h.owned p size hmem
  have hrange := allocatedAt_range hroom
  have hextent := h.extent
  obtain ⟨left, block, right, -, -, -, rfl⟩ := exists_block_of_allocatedAt hroom
  have := four_dvd_total left
  omega

theorem payload_disjoint (h : Heap client blocks) {p q : Int} {size n : Nat}
    (hp : (p, size) ∈ client.live) (hq : (q, n) ∈ client.live) (hne : p ≠ q) :
    p + size ≤ q ∨ q + n ≤ p := by
  obtain ⟨room, hroom, hsize⟩ := h.owned p size hp
  obtain ⟨other, hother, hn⟩ := h.owned q n hq
  obtain ⟨left, block, right, rfl, -, rfl, rfl⟩ := exists_block_of_allocatedAt hroom
  rw [allocatedAt_append, allocatedAt, if_neg (fun hcase => hne hcase.1.symm)]
    at hother
  cases hleft : allocatedAt 4 left q with
  | some found =>
      have hrange := allocatedAt_range hleft
      rw [hleft] at hother
      obtain rfl := Option.some.inj hother
      right
      omega
  | none =>
      rw [hleft, Option.none_or] at hother
      have hrange := allocatedAt_range hother
      left
      omega

/-- No operation on another allocation changes a byte of a live one. -/
theorem payload_kept (h : Heap client blocks)
    (hinit : client.arena.isInitialized = true) {p : Int} {size : Nat}
    (hmem : (p, size) ∈ client.live) {op : Op} {next : Client}
    (hallowed : client.Allowed op) (hstep : client.step op = some next)
    (hspares : op.Spares p) {x : Int} (hlow : p ≤ x) (hhigh : x < p + size) :
    next.arena.myBlock x = client.arena.myBlock x := by
  cases op with
  | malloc request =>
      obtain ⟨⟨myBlock, init⟩, live⟩ := client
      obtain rfl : init = true := hinit
      rcases mymalloc_cases h.region h.extent request with
        ⟨hnone, -⟩ | ⟨left, block, right, placed, rfl, hfree, -, hplaced, hsome⟩
      · simp only [step, hnone, Option.map_some, Option.some.injEq] at hstep
        subst hstep
        rfl
      · simp only [step, hsome, Option.map_some, Option.some.injEq] at hstep
        subst hstep
        exact paint_outside tagCodec _ (by decide)
          ((h.malloc hfree hplaced).payload_untagged
            (List.mem_cons_of_mem _ hmem) hlow hhigh)
  | free ptr =>
      obtain rfl := Option.some.inj hstep
      cases ptr with
      | none => rfl
      | some q =>
          obtain ⟨left, block, right, rfl, -, rfl, hqlow, hqhigh⟩ :=
            h.live_block hallowed
          have hmin := block.minimal
          have hsplit := List.isChain_append.mp h.merged
          have hright := (List.isChain_cons.mp hsplit.2.1).2
          have hother : (p, size) ∈ client.live.filter
              fun entry => some entry.1 ≠ some (4 + (total left : Int) + 4) :=
            List.mem_filter.mpr
              ⟨hmem, by simpa using fun heq => hspares (by rw [heq])⟩
          have hkept := (h.release true).payload_untagged hother hlow hhigh
          change myfree client.arena.myBlock
            (some (4 + (total left : Int) + 4)) x = client.arena.myBlock x
          rw [myfree_eq (by omega) (by omega),
            BoundaryTag.release_eq h.region hsplit.1 hright]
          exact paint_wipe_outside tagCodec _ _ (by decide)
            (h.payload_untagged hmem hlow hhigh) hkept
  | write q offset byte =>
      obtain rfl := Option.some.inj hstep
      obtain ⟨n, hq, hoffset⟩ := hallowed
      have hapart := h.payload_disjoint hmem hq (fun heq => hspares heq.symm)
      exact if_neg (by omega)

end Heap

/-- Live allocations lie in the arena, aligned, apart from each other and from
every tag word, and no operation on another pointer changes their bytes. -/
theorem reachable_live_undisturbed {client : Client} (h : Reachable client) :
    ∀ p size, (p, size) ∈ client.live →
      (0 ≤ p ∧ p + size ≤ memSize ∧ 4 ∣ p) ∧
      (∀ q n, (q, n) ∈ client.live → (q, n) ≠ (p, size) →
        p + size ≤ q ∨ q + n ≤ p) ∧
      (∃ blocks, Tiles tagCodec client.arena.myBlock 4 blocks ∧
        4 + total blocks = 4996 ∧
        ∀ x, p ≤ x → x < p + size →
          4 ≤ x ∧ x < 4996 ∧ tagAt tagCodec 4 blocks (x - x % 4) = none) ∧
      (∀ op next, client.Allowed op → client.step op = some next →
        op.Spares p → ∀ x, p ≤ x → x < p + size →
          next.arena.myBlock x = client.arena.myBlock x) := by
  intro p size hmem
  obtain ⟨hinit, blocks, heap⟩ := h.heap hmem
  have hbounds := heap.payload_bounds hmem
  refine ⟨⟨by omega, by unfold memSize; omega, hbounds.2.2⟩, ?_, ?_, ?_⟩
  · intro q n hq hne
    by_cases heq : p = q
    · subst heq
      have hsame := List.inj_on_of_nodup_map heap.distinct hmem hq rfl
      exact absurd hsame.symm hne
    · exact heap.payload_disjoint hmem hq heq
  · refine ⟨blocks, heap.region.tiles, by rw [heap.extent], ?_⟩
    intro x hlow hhigh
    exact ⟨by omega, by omega, heap.payload_untagged hmem hlow hhigh⟩
  · intro op next hallowed hstep hspares x hlow hhigh
    exact heap.payload_kept hinit hmem hallowed hstep hspares hlow hhigh

theorem reachable_live_undisturbed_first_malloc :
    ∃ client, Client.step ⟨⟨fun _ => 0, false⟩, []⟩ (.malloc 8) = some client ∧
      ∀ size next, client.step (.malloc size) = some next →
        ∀ x, 8 ≤ x → x < 16 →
          next.arena.myBlock x = client.arena.myBlock x := by
  obtain ⟨client, hstep, hreach, hlive, -⟩ := first_malloc
  refine ⟨client, hstep, fun size next hnext x hlow hhigh => ?_⟩
  have hkept := (reachable_live_undisturbed hreach 8 8 (by simp [hlive])).2.2.2
  exact hkept (.malloc size) next trivial hnext trivial x hlow hhigh

end RutgersOS.VSmymalloc
