import RutgersOS.VSmymalloc.FreeOrder
import RutgersOS.VSmymalloc.Workloads

namespace RutgersOS.VSmymalloc

open RutgersOS.Memory
open RutgersOS.Memory.BoundaryTag (Region)

/-- What a workload has: the arena, the array `pointers` and the two counts.  `calls`
counts its calls of `rand`. -/
structure Grind where
  arena : Arena
  pointers : Nat → Option Int
  mallocCount : Nat
  freeCount : Nat
  calls : Nat

namespace Grind

def start (arena : Arena) : Grind :=
  ⟨arena, fun _ => none, 0, 0, 0⟩

def malloc (g : Grind) (size : Nat) : Option Grind := do
  let (arena, ptr) ← mymalloc g.arena size
  some
    { g with
      arena := arena
      pointers := Function.update g.pointers g.mallocCount ptr
      mallocCount := g.mallocCount + 1 }

def free (g : Grind) : Grind :=
  { g with
    arena := { g.arena with myBlock := myfree g.arena.myBlock (g.pointers g.freeCount) }
    freeCount := g.freeCount + 1 }

def mallocs (size : Nat → Nat) (g : Grind) : Nat → Option Grind
  | 0 => some g
  | n + 1 => do
      let g ← g.malloc (size g.mallocCount)
      mallocs size g n

def frees (g : Grind) : Nat → Grind
  | 0 => g
  | n + 1 => frees g.free n

/-- The size of a malloc and the calls of `rand` until then: `grindC` takes 1, `grindD`
draws a size below `bound`. -/
def drawSize (bound : Option Nat) (rand : Nat → Nat) (calls : Nat) : Nat × Nat :=
  match bound with
  | none => (1, calls)
  | some bound => (rand calls % bound, calls + 1)

/-- The first loop of `grindC` and of `grindD`, which the fuel cuts off where too few of
the random numbers are even. -/
def draws (bound : Option Nat) (rand : Nat → Nat) (g : Grind) : Nat → Option Grind
  | 0 => none
  | n + 1 =>
      if g.mallocCount < 3000 then
        if rand g.calls % 2 = 0 then do
          let drawn := drawSize bound rand (g.calls + 1)
          let g ← Grind.malloc { g with calls := drawn.2 } drawn.1
          draws bound rand g n
        else if g.freeCount < g.mallocCount then
          draws bound rand { free g with calls := g.calls + 1 } n
        else draws bound rand { g with calls := g.calls + 1 } n
      else some g

end Grind

open Grind

def grindA (arena : Arena) : Option Arena := do
  let g ← mallocs (fun _ => 1) (start arena) 3000
  some (frees g 3000).arena

def grindB (arena : Arena) : Option Arena := do
  let (arena, test) ← mymalloc arena 1
  some
    { arena with
      myBlock := (List.replicate 3000 test).foldl myfree arena.myBlock }

def grindC (rand : Nat → Nat) (fuel : Nat) (arena : Arena) : Option Arena := do
  let g ← draws none rand (start arena) fuel
  some (frees g (3000 - g.freeCount)).arena

def grindD (rand : Nat → Nat) (fuel : Nat) (arena : Arena) : Option Arena := do
  let g ← draws (some 3000) rand (start arena) fuel
  some (frees g (3000 - g.freeCount)).arena

/-- The sizes go up by 5 from 10 on, and down again. -/
def grindF (arena : Arena) : Option Arena := do
  let g ← mallocs (fun i => 10 + 5 * i) (start arena) 1500
  let g ← mallocs (fun i => 7510 - 5 * (i - 1500)) (frees g 1500) 1500
  some (frees g 1500).arena

structure Holding (first : Client) (g : Grind) (client : Client) : Prop where
  arena : client.arena = g.arena
  run : Client.Sparing first client
  order : g.freeCount ≤ g.mallocCount
  held : ∀ i p, g.freeCount ≤ i → i < g.mallocCount → g.pointers i = some p →
    client.Live p ∧ ¬ first.Live p
  apart : ∀ i j p, g.freeCount ≤ i → i < j → j < g.mallocCount → g.pointers i = some p →
    g.pointers j ≠ some p
  taken : ∀ p, client.Live p → first.Live p ∨
    ∃ i, g.freeCount ≤ i ∧ i < g.mallocCount ∧ g.pointers i = some p

theorem holding_start (first : Client) : Holding first (start first.arena) first where
  arena := rfl
  run := .start
  order := Nat.le_refl 0
  held i _ _ hi := absurd hi (Nat.not_lt_zero i)
  apart _ j _ _ _ hj := absurd hj (Nat.not_lt_zero j)
  taken _ hp := Or.inl hp

theorem malloc_live {client next : Client} {size : Nat}
    (hstep : client.step (.malloc size) = some next) : ∃ ptr,
      mymalloc client.arena size = some (next.arena, ptr) ∧
        ∀ p, next.Live p ↔ client.Live p ∨ ptr = some p := by
  obtain ⟨⟨arena, ptr⟩, hmalloc, rfl⟩ := Option.map_eq_some_iff.mp hstep
  refine ⟨ptr, hmalloc, fun p => ?_⟩
  cases ptr with
  | none => exact (or_iff_left (Option.some_ne_none p).symm).symm
  | some q =>
      unfold Client.Live
      simp only [List.map_cons, List.mem_cons, Option.some.injEq]
      exact ⟨fun hp => hp.elim (fun heq => Or.inr heq.symm) Or.inl,
        fun hp => hp.elim Or.inr fun heq => Or.inl heq.symm⟩

theorem malloc_fresh {client next : Client} (hnext : Client.Reachable next) {size : Nat} {p : Int}
    (hmalloc : mymalloc client.arena size = some (next.arena, some p))
    (hstep : client.step (.malloc size) = some next) : ¬ client.Live p := by
  obtain ⟨blocks, hlayout⟩ := hnext.layout
  have hdistinct := hlayout.heap.distinct
  obtain ⟨⟨arena, ptr⟩, hother, rfl⟩ := Option.map_eq_some_iff.mp hstep
  obtain ⟨-, rfl⟩ := Prod.mk.inj (Option.some.inj (hmalloc.symm.trans hother))
  exact (List.nodup_cons.mp hdistinct).1

namespace Holding

variable {first client : Client} {g : Grind}

theorem called (h : Holding first g client) (calls : Nat) :
    Holding first { g with calls := calls } client :=
  ⟨h.arena, h.run, h.order, h.held, h.apart, h.taken⟩

theorem malloc (h : Holding first g client) (hfirst : Client.Reachable first) (size : Nat) :
    ∃ g' client', g.malloc size = some g' ∧ Holding first g' client' ∧
      g'.mallocCount = g.mallocCount + 1 ∧ g'.freeCount = g.freeCount ∧
        g'.calls = g.calls := by
  obtain ⟨next, hstep⟩ :=
    (h.run.reachable hfirst).returns (.malloc size) trivial
  have hrun : Client.Sparing first next :=
    .step (.malloc size) h.run trivial (fun p _ heq => by cases heq) hstep
  obtain ⟨ptr, hmalloc, hlive⟩ := malloc_live hstep
  have hfresh : ∀ p, ptr = some p → ¬ client.Live p := by
    rintro p rfl
    exact malloc_fresh (hrun.reachable hfirst) hmalloc hstep
  have hsame : ∀ {i}, i < g.mallocCount →
      Function.update g.pointers g.mallocCount ptr i = g.pointers i :=
    fun hi => Function.update_of_ne (Nat.ne_of_lt hi) _ _
  have hgrind : g.malloc size = some
      { g with
        arena := next.arena
        pointers := Function.update g.pointers g.mallocCount ptr
        mallocCount := g.mallocCount + 1 } := by
    rw [Grind.malloc, ← h.arena, hmalloc]
    rfl
  refine ⟨_, next, hgrind, ⟨rfl, hrun, Nat.le_succ_of_le h.order, ?_, ?_, ?_⟩, rfl, rfl,
    rfl⟩
  · intro i p hlow hhigh hp
    dsimp only at hhigh hp
    rcases Nat.lt_or_eq_of_le (Nat.le_of_lt_succ hhigh) with hlt | rfl
    · rw [hsame hlt] at hp
      obtain ⟨hin, hout⟩ := h.held i p hlow hlt hp
      exact ⟨(hlive p).mpr (Or.inl hin), hout⟩
    · rw [Function.update_self] at hp
      refine ⟨(hlive p).mpr (Or.inr hp), fun hold => hfresh p hp ?_⟩
      obtain ⟨blocks, hbefore⟩ := hfirst.layout
      obtain ⟨_, _, hkept⟩ := h.run.kept hbefore
      exact (hkept p hold).1
  · intro i j p hlow hij hj hp
    dsimp only at hj hp ⊢
    have hi : i < g.mallocCount := by omega
    rw [hsame hi] at hp
    rcases Nat.lt_or_eq_of_le (Nat.le_of_lt_succ hj) with hlt | rfl
    · rw [hsame hlt]
      exact h.apart i j p hlow hij hlt hp
    · rw [Function.update_self]
      exact fun heq => hfresh p heq (h.held i p hlow hi hp).1
  · intro p hp
    rcases (hlive p).mp hp with hold | hnew
    · rcases h.taken p hold with hin | ⟨i, hlow, hhigh, hi⟩
      · exact Or.inl hin
      · exact Or.inr ⟨i, hlow, Nat.lt_succ_of_lt hhigh, (hsame hhigh).trans hi⟩
    · exact Or.inr ⟨g.mallocCount, h.order, Nat.lt_succ_self _,
        (Function.update_self _ _ _).trans hnew⟩

theorem free (h : Holding first g client) (hlt : g.freeCount < g.mallocCount) :
    ∃ client', Holding first g.free client' := by
  have hallowed : client.Allowed (.free (g.pointers g.freeCount)) := by
    cases hp : g.pointers g.freeCount with
    | none => trivial
    | some p => exact (h.held _ p (Nat.le_refl _) hlt hp).1
  have hspared : ∀ p, first.Live p → Op.free (g.pointers g.freeCount) ≠ .free (some p) := by
    intro p hp heq
    exact (h.held _ p (Nat.le_refl _) hlt (Op.free.inj heq)).2 hp
  refine ⟨_, ?_, .step (.free (g.pointers g.freeCount)) h.run hallowed hspared rfl, hlt, ?_,
    ?_, ?_⟩
  · rw [Grind.free, ← h.arena]
  · intro i p hlow hhigh hp
    obtain ⟨hin, hout⟩ := h.held i p (Nat.le_of_succ_le hlow) hhigh hp
    refine ⟨Client.live_filter hin fun heq => ?_, hout⟩
    exact h.apart g.freeCount i p (Nat.le_refl _) hlow hhigh heq.symm hp
  · intro i j p hlow
    exact h.apart i j p (Nat.le_of_succ_le hlow)
  · intro p hp
    obtain ⟨entry, hentry, rfl⟩ := List.mem_map.mp hp
    obtain ⟨hmem, hkept⟩ := List.mem_filter.mp hentry
    rcases h.taken entry.1 (List.mem_map.mpr ⟨entry, hmem, rfl⟩) with
      hin | ⟨i, hlow, hhigh, hi⟩
    · exact Or.inl hin
    · rcases Nat.lt_or_eq_of_le hlow with hmore | rfl
      · exact Or.inr ⟨i, hmore, hhigh, hi⟩
      · exact absurd hi.symm (by simpa using hkept)

theorem mallocs (hfirst : Client.Reachable first) (size : Nat → Nat) (n : Nat) :
    ∀ {g client}, Holding first g client → ∃ g' client', Grind.mallocs size g n = some g' ∧
      Holding first g' client' ∧ g'.mallocCount = g.mallocCount + n ∧
        g'.freeCount = g.freeCount := by
  induction n with
  | zero => exact fun h => ⟨_, _, rfl, h, rfl, rfl⟩
  | succ n ih =>
      intro g client h
      obtain ⟨middle, client', hmalloc, hmiddle, hcount, hfreed, -⟩ :=
        h.malloc hfirst (size g.mallocCount)
      obtain ⟨last, client'', hmallocs, hlast, hcount', hfreed'⟩ := ih hmiddle
      refine ⟨last, client'', ?_, hlast, by omega, hfreed'.trans hfreed⟩
      rw [Grind.mallocs, hmalloc]
      exact hmallocs

theorem frees (n : Nat) : ∀ {g : Grind} {client : Client}, Holding first g client →
    g.freeCount + n ≤ g.mallocCount → ∃ client', Holding first (Grind.frees g n) client' ∧
      (Grind.frees g n).mallocCount = g.mallocCount ∧
        (Grind.frees g n).freeCount = g.freeCount + n := by
  induction n with
  | zero => exact fun h _ => ⟨_, h, rfl, rfl⟩
  | succ n ih =>
      intro g client h hle
      obtain ⟨client', hfreed⟩ := h.free (by omega)
      have hle' : g.free.freeCount + n ≤ g.free.mallocCount := by
        change g.freeCount + 1 + n ≤ g.mallocCount
        omega
      obtain ⟨client'', hlast, hcount, hfreed'⟩ := ih hfreed hle'
      refine ⟨client'', hlast, hcount, ?_⟩
      rw [Grind.frees, hfreed']
      change g.freeCount + 1 + n = g.freeCount + (n + 1)
      omega

section Draws

variable (hfirst : Client.Reachable first) {rand : Nat → Nat} (bound : Option Nat)

theorem skip (d : Nat) : ∀ {g : Grind} {client : Client}, Holding first g client →
    g.mallocCount < 3000 → rand (g.calls + d) % 2 = 0 →
      ∃ g' client', Holding first g' client' ∧ g'.mallocCount = g.mallocCount ∧
        rand g'.calls % 2 = 0 ∧
          ∃ k, ∀ n, draws bound rand g (n + k) = draws bound rand g' n := by
  induction d with
  | zero => exact fun h _ heven => ⟨_, _, h, rfl, heven, 0, fun _ => rfl⟩
  | succ d ih =>
      intro g client h hcount heven
      rcases Classical.em (rand g.calls % 2 = 0) with hnow | hodd
      · exact ⟨g, client, h, rfl, hnow, 0, fun _ => rfl⟩
      · have hlater : rand (g.calls + 1 + d) % 2 = 0 := by
          rwa [Nat.add_assoc, Nat.add_comm 1 d]
        rcases Nat.lt_or_ge g.freeCount g.mallocCount with hlt | hge
        · obtain ⟨client', hfreed⟩ := h.free hlt
          obtain ⟨g', last, hlast, hsame, heven', k, hdraws⟩ :=
            ih (hfreed.called (g.calls + 1)) hcount hlater
          refine ⟨g', last, hlast, hsame, heven', k + 1, fun n => ?_⟩
          rw [← hdraws, ← Nat.add_assoc, draws, if_pos hcount, if_neg hodd, if_pos hlt]
        · obtain ⟨g', last, hlast, hsame, heven', k, hdraws⟩ :=
            ih (h.called (g.calls + 1)) hcount hlater
          refine ⟨g', last, hlast, hsame, heven', k + 1, fun n => ?_⟩
          rw [← hdraws, ← Nat.add_assoc, draws, if_pos hcount, if_neg hodd,
            if_neg (Nat.not_lt.mpr hge)]

include hfirst

/-- The loop ends, since random numbers do not stay odd. -/
theorem draws (hrand : ∀ n, ∃ m, n ≤ m ∧ rand m % 2 = 0) (left : Nat) :
    ∀ {g : Grind} {client : Client}, Holding first g client → g.mallocCount + left = 3000 →
      ∃ fuel g' client', Grind.draws bound rand g fuel = some g' ∧ Holding first g' client' ∧
        g'.mallocCount = 3000 := by
  induction left with
  | zero =>
      intro g client h hcount
      refine ⟨1, g, client, ?_, h, hcount⟩
      rw [Grind.draws, if_neg (by omega)]
  | succ left ih =>
      intro g client h hcount
      obtain ⟨m, hle, heven⟩ := hrand g.calls
      obtain ⟨d, rfl⟩ := Nat.exists_eq_add_of_le hle
      obtain ⟨here, middle, hhere, hsame, heven, k, hskip⟩ := h.skip bound d (by omega) heven
      have hless : here.mallocCount < 3000 := by omega
      obtain ⟨drawn, hdrawn⟩ : ∃ drawn, drawn = drawSize bound rand (here.calls + 1) :=
        ⟨_, rfl⟩
      obtain ⟨next, client', hmalloc, hnext, hmore, -⟩ :=
        (hhere.called drawn.2).malloc hfirst drawn.1
      obtain ⟨fuel, last, client'', hdraws, hlast, hend⟩ := ih hnext (by
        change next.mallocCount = here.mallocCount + 1 at hmore
        omega)
      refine ⟨fuel + 1 + k, last, client'', ?_, hlast, hend⟩
      rw [hskip, Grind.draws, if_pos hless, if_pos heven]
      dsimp only
      rw [← hdrawn, hmalloc]
      exact hdraws

end Draws

end Holding

def Restores (client : Client) (arena : Arena) : Prop :=
  ∃ last, Client.Reachable last ∧ last.arena = arena ∧
    (∀ p, last.Live p ↔ client.Live p) ∧
      ∀ blocks, Region tagCodec client.arena.heap 4 blocks ↔
        Region tagCodec arena.heap 4 blocks

theorem Client.Sparing.restores {first last : Client} (h : Client.Sparing first last)
    (hfirst : Client.Reachable first) (hfreed : ∀ p, last.Live p → first.Live p) :
    Restores first last.arena := by
  obtain ⟨blocks, hlayout⟩ := hfirst.layout
  obtain ⟨_, _, hkept⟩ := h.kept hlayout
  exact ⟨last, h.reachable hfirst, rfl, fun p => ⟨hfreed p, fun hp => (hkept p hp).1⟩,
    hlayout.region_iff (h.layout hlayout hfreed)⟩

theorem Holding.restores {first client : Client} {g : Grind} (h : Holding first g client)
    (hfirst : Client.Reachable first) (hall : g.freeCount = g.mallocCount) :
    Restores first g.arena := by
  rw [← h.arena]
  apply h.run.restores hfirst
  intro p hp
  rcases h.taken p hp with hin | ⟨i, hlow, hhigh, -⟩
  · exact hin
  · omega

section Workloads

variable {first : Client} (hfirst : Client.Reachable first)

include hfirst

theorem mallocs_start (size : Nat → Nat) (n : Nat) : ∃ g client,
    mallocs size (start first.arena) n = some g ∧ Holding first g client ∧
      g.mallocCount = n ∧ g.freeCount = 0 := by
  obtain ⟨g, client, hmallocs, hg, hcount, hfreed⟩ :=
    (holding_start first).mallocs hfirst size n
  exact ⟨g, client, hmallocs, hg, hcount.trans (Nat.zero_add n), hfreed⟩

theorem grindA_restores : ∃ arena, grindA first.arena = some arena ∧ Restores first arena := by
  obtain ⟨g, client, hmallocs, hg, hcount, hfreed⟩ :=
    mallocs_start hfirst (fun _ => 1) 3000
  obtain ⟨client', hlast, hcount', hfreed'⟩ := hg.frees 3000 (by omega)
  refine ⟨_, ?_, hlast.restores hfirst (by omega)⟩
  rw [grindA, hmallocs]
  rfl

omit hfirst in
theorem free_null (myBlock : Bytes) (n : Nat) :
    (List.replicate n none).foldl myfree myBlock = myBlock := by
  induction n with
  | zero => rfl
  | succ n ih => exact ih

theorem free_repeated {p : Int} (hlive : first.Live p) (n : Nat) :
    (List.replicate (n + 1) (some p)).foldl myfree first.arena.myBlock =
      myfree first.arena.myBlock (some p) := by
  have hall : (List.replicate (n + 1) (some p)).foldl myfree first.arena.myBlock =
      freeAll first.arena.myBlock (List.replicate (n + 1) p) := by
    rw [freeAll, ← List.map_replicate, List.foldl_map]
  have hone : myfree first.arena.myBlock (some p) = freeAll first.arena.myBlock [p] := rfl
  rw [hall, hone]
  refine freeAll_congr hfirst (fun q hq => ?_) fun q => ?_
  · obtain rfl := List.eq_of_mem_replicate hq
    exact hlive
  · simp

theorem grindB_restores : ∃ arena, grindB first.arena = some arena ∧ Restores first arena := by
  obtain ⟨next, hstep⟩ := hfirst.returns (.malloc 1) trivial
  have hrun : Client.Sparing first next :=
    .step (.malloc 1) .start trivial (fun p _ heq => by cases heq) hstep
  have hnext := hrun.reachable hfirst
  obtain ⟨ptr, hmalloc, hlive⟩ := malloc_live hstep
  have hgrind : grindB first.arena = some
      { next.arena with
        myBlock := (List.replicate 3000 ptr).foldl myfree next.arena.myBlock } := by
    rw [grindB, hmalloc]
    rfl
  refine ⟨_, hgrind, ?_⟩
  cases ptr with
  | none =>
      rw [free_null]
      apply hrun.restores hfirst
      intro p hp
      exact ((hlive p).mp hp).resolve_right (Option.some_ne_none p).symm
  | some p =>
      have hp : next.Live p := (hlive p).mpr (Or.inr rfl)
      have hfresh := malloc_fresh hnext hmalloc hstep
      rw [free_repeated hnext hp 2999]
      have hfree : Client.Sparing first _ :=
        .step (.free (some p)) hrun hp (fun q hq heq => hfresh
          (Option.some.inj (Op.free.inj heq) ▸ hq)) rfl
      apply hfree.restores hfirst
      intro q hq
      obtain ⟨entry, hentry, rfl⟩ := List.mem_map.mp hq
      obtain ⟨hmem, hkept⟩ := List.mem_filter.mp hentry
      refine ((hlive entry.1).mp (List.mem_map.mpr ⟨entry, hmem, rfl⟩)).resolve_right ?_
      intro heq
      exact absurd heq.symm (by simpa using hkept)

section Random

variable {rand : Nat → Nat} (hrand : ∀ n, ∃ m, n ≤ m ∧ rand m % 2 = 0)

include hrand

theorem draws_restores (bound : Option Nat) : ∃ fuel g,
    Grind.draws bound rand (start first.arena) fuel = some g ∧
      Restores first (frees g (3000 - g.freeCount)).arena := by
  obtain ⟨fuel, g, client, hdraws, hg, hcount⟩ :=
    (holding_start first).draws hfirst bound hrand 3000 rfl
  have horder := hg.order
  obtain ⟨client', hlast, hcount', hfreed'⟩ := hg.frees (3000 - g.freeCount) (by omega)
  exact ⟨fuel, g, hdraws, hlast.restores hfirst (by omega)⟩

theorem grindC_restores : ∃ fuel arena, grindC rand fuel first.arena = some arena ∧
    Restores first arena := by
  obtain ⟨fuel, g, hdraws, hrestores⟩ := draws_restores hfirst hrand none
  refine ⟨fuel, _, ?_, hrestores⟩
  rw [grindC, hdraws]
  rfl

theorem grindD_restores : ∃ fuel arena, grindD rand fuel first.arena = some arena ∧
    Restores first arena := by
  obtain ⟨fuel, g, hdraws, hrestores⟩ := draws_restores hfirst hrand (some 3000)
  refine ⟨fuel, _, ?_, hrestores⟩
  rw [grindD, hdraws]
  rfl

end Random

theorem grindF_restores : ∃ arena, grindF first.arena = some arena ∧ Restores first arena := by
  obtain ⟨g, client, hmallocs, hg, hcount, hfreed⟩ :=
    mallocs_start hfirst (fun i => 10 + 5 * i) 1500
  obtain ⟨client₂, hg₂, hcount₂, hfreed₂⟩ := hg.frees 1500 (by omega)
  obtain ⟨g₃, client₃, hmallocs₃, hg₃, hcount₃, hfreed₃⟩ :=
    hg₂.mallocs hfirst (fun i => 7510 - 5 * (i - 1500)) 1500
  obtain ⟨client₄, hg₄, hcount₄, hfreed₄⟩ := hg₃.frees 1500 (by omega)
  refine ⟨_, ?_, hg₄.restores hfirst (by omega)⟩
  rw [grindF, hmallocs, Option.bind_eq_bind, Option.bind_some, hmallocs₃, Option.bind_some]

end Workloads

inductive Workload
  | grindA
  | grindB
  | grindC (rand : Nat → Nat)
  | grindD (rand : Nat → Nat)
  | grindF

namespace Workload

def run (fuel : Nat) : Workload → Arena → Option Arena
  | .grindA => VSmymalloc.grindA
  | .grindB => VSmymalloc.grindB
  | .grindC rand => VSmymalloc.grindC rand fuel
  | .grindD rand => VSmymalloc.grindD rand fuel
  | .grindF => VSmymalloc.grindF

/-- `rand` does not return odd numbers only, from some call on. -/
def Random : Workload → Prop
  | .grindC rand => ∀ n, ∃ m, n ≤ m ∧ rand m % 2 = 0
  | .grindD rand => ∀ n, ∃ m, n ≤ m ∧ rand m % 2 = 0
  | _ => True

inductive Ground : List Workload → Arena → Arena → Prop
  | done (arena : Arena) : Ground [] arena arena
  | next {workloads : List Workload} {arena middle last : Arena} {workload : Workload}
      {fuel : Nat} : workload.run fuel arena = some middle → Ground workloads middle last →
        Ground (workload :: workloads) arena last

end Workload

theorem draws_agree {bound : Option Nat} {rand : Nat → Nat} (n : Nat) :
    ∀ {g first second : Grind} {m : Nat}, draws bound rand g n = some first →
      draws bound rand g m = some second → first = second := by
  induction n with
  | zero =>
      intro g first second m hfirst
      cases hfirst
  | succ n ih =>
      intro g first second m hfirst hsecond
      cases m with
      | zero => cases hsecond
      | succ m =>
          rw [draws] at hfirst hsecond
          split at hfirst
          · next hcount =>
              rw [if_pos hcount] at hsecond
              split at hfirst
              · next heven =>
                  rw [if_pos heven] at hsecond
                  obtain ⟨next, hnext, hfirst⟩ := Option.bind_eq_some_iff.mp hfirst
                  obtain ⟨other, hother, hsecond⟩ := Option.bind_eq_some_iff.mp hsecond
                  obtain rfl := Option.some.inj (hnext.symm.trans hother)
                  exact ih hfirst hsecond
              · next hodd =>
                  rw [if_neg hodd] at hsecond
                  split at hfirst
                  · next hlt =>
                      rw [if_pos hlt] at hsecond
                      exact ih hfirst hsecond
                  · next hge =>
                      rw [if_neg hge] at hsecond
                      exact ih hfirst hsecond
          · next hcount =>
              rw [if_neg hcount] at hsecond
              exact Option.some.inj (hfirst.symm.trans hsecond)

namespace Workload

theorem run_agree {workload : Workload} {n m : Nat} {arena first second : Arena}
    (hfirst : workload.run n arena = some first)
    (hsecond : workload.run m arena = some second) : first = second := by
  cases workload with
  | grindA => exact Option.some.inj (hfirst.symm.trans hsecond)
  | grindB => exact Option.some.inj (hfirst.symm.trans hsecond)
  | grindC rand =>
      obtain ⟨g, hg, hfrees⟩ := Option.bind_eq_some_iff.mp hfirst
      obtain ⟨g', hg', hfrees'⟩ := Option.bind_eq_some_iff.mp hsecond
      obtain rfl := draws_agree n hg hg'
      exact Option.some.inj (hfrees.symm.trans hfrees')
  | grindD rand =>
      obtain ⟨g, hg, hfrees⟩ := Option.bind_eq_some_iff.mp hfirst
      obtain ⟨g', hg', hfrees'⟩ := Option.bind_eq_some_iff.mp hsecond
      obtain rfl := draws_agree n hg hg'
      exact Option.some.inj (hfrees.symm.trans hfrees')
  | grindF => exact Option.some.inj (hfirst.symm.trans hsecond)

theorem run_restores {workload : Workload} {first : Client} (hfirst : Client.Reachable first)
    (hrandom : workload.Random) :
    ∃ fuel arena, workload.run fuel first.arena = some arena ∧ Restores first arena := by
  cases workload with
  | grindA => exact ⟨0, grindA_restores hfirst⟩
  | grindB => exact ⟨0, grindB_restores hfirst⟩
  | grindC rand => exact grindC_restores hfirst hrandom
  | grindD rand => exact grindD_restores hfirst hrandom
  | grindF => exact ⟨0, grindF_restores hfirst⟩

end Workload

theorem Restores.trans {first second : Client} {arena : Arena}
    (h : Restores second arena) (hlive : ∀ p, second.Live p ↔ first.Live p)
    (hblocks : ∀ blocks, Region tagCodec first.arena.heap 4 blocks ↔
      Region tagCodec second.arena.heap 4 blocks) : Restores first arena := by
  obtain ⟨last, hlast, harena, hsame, hrest⟩ := h
  exact ⟨last, hlast, harena, fun p => (hsame p).trans (hlive p),
    fun blocks => (hblocks blocks).trans (hrest blocks)⟩

/-- However often the workloads run, and in whatever order, they all end, and the arena
then has the blocks that it had before, of the same clients. -/
theorem memgrind_restores (workloads : List Workload) :
    ∀ {client : Client}, Client.Reachable client → (∀ w ∈ workloads, Workload.Random w) →
      (∃ arena, Workload.Ground workloads client.arena arena) ∧
        ∀ arena, Workload.Ground workloads client.arena arena → Restores client arena := by
  induction workloads with
  | nil =>
      intro client h _
      refine ⟨⟨_, .done client.arena⟩, fun arena hground => ?_⟩
      cases hground
      exact ⟨client, h, rfl, fun p => Iff.rfl, fun blocks => Iff.rfl⟩
  | cons workload workloads ih =>
      intro client h hrandom
      obtain ⟨fuel, middle, hrun, next, hnext, rfl, hlive, hblocks⟩ :=
        Workload.run_restores h (hrandom workload List.mem_cons_self)
      obtain ⟨⟨last, hlast⟩, hall⟩ :=
        ih hnext fun w hw => hrandom w (List.mem_cons_of_mem _ hw)
      refine ⟨⟨last, .next hrun hlast⟩, fun arena hground => ?_⟩
      cases hground with
      | next hother hrest =>
          obtain rfl := Workload.run_agree hrun hother
          exact (hall arena hrest).trans hlive hblocks

theorem memgrind_restores_fresh : ∃ arena,
    Workload.Ground [.grindA, .grindB, .grindC fun n => n, .grindD fun n => n, .grindF]
      ⟨fun _ => 7, false⟩ arena ∧ Region tagCodec arena.heap 4 [wholeArena] := by
  have hrandom : ∀ w ∈ [Workload.grindA, .grindB, .grindC fun n => n, .grindD fun n => n,
      .grindF], Workload.Random w := by
    have heven : ∀ n : Nat, ∃ m, n ≤ m ∧ m % 2 = 0 :=
      fun n => ⟨2 * n, by omega, by omega⟩
    intro w hw
    simp only [List.mem_cons, List.not_mem_nil, or_false] at hw
    rcases hw with rfl | rfl | rfl | rfl | rfl
    · trivial
    · trivial
    · exact heven
    · exact heven
    · trivial
  obtain ⟨⟨arena, hground⟩, hall⟩ :=
    memgrind_restores _ (.uninitialised fun _ => 7) hrandom
  obtain ⟨-, -, -, -, hblocks⟩ := hall arena hground
  exact ⟨arena, hground, (hblocks _).mp (initializeHeap_heap fun _ => 7).region⟩

end RutgersOS.VSmymalloc
