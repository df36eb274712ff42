import Mathlib
import RutgersOS.Assignment2.JoinValues
import RutgersOS.Assignment2.Waiting

namespace RutgersOS.Assignment2

/-- The calls of a thread.  `join k` joins the `k`-th youngest thread that it created and
has not joined.  `stale` is what the struct of a new thread holds. -/
inductive Program where
  | exit (valuePtr : Int)
  | yield (rest : Program)
  | create (stale : Int) (child rest : Program)
  | join (k : Nat) (rest : Program)

namespace Program

def size : Program → Nat
  | .exit _ => 1
  | .yield rest => rest.size + 1
  | .create _ child rest => child.size + rest.size + 1
  | .join _ rest => rest.size + 1

def WellFormed : Nat → Program → Prop
  | _, .exit _ => True
  | n, .yield rest => WellFormed n rest
  | n, .create _ child rest => WellFormed 0 child ∧ WellFormed (n + 1) rest
  | n, .join k rest => k < n ∧ WellFormed (n - 1) rest

/-- What a `join` of the thread returns: the value of its exit, or what its struct held
where that is NULL. -/
def result (stale : Int) : Program → Int
  | .exit valuePtr => if valuePtr ≠ 0 then valuePtr else stale
  | .yield rest => rest.result stale
  | .create _ _ rest => rest.result stale
  | .join _ rest => rest.result stale

def returns : List Int → Program → List Int
  | _, .exit _ => []
  | children, .yield rest => rest.returns children
  | children, .create stale child rest => rest.returns (child.result stale :: children)
  | children, .join k rest => children[k]?.toList ++ rest.returns (children.eraseIdx k)

theorem size_pos (program : Program) : 0 < program.size := by
  cases program with
  | exit valuePtr => exact Nat.one_pos
  | yield rest => exact Nat.succ_pos _
  | create stale child rest => exact Nat.succ_pos _
  | join k rest => exact Nat.succ_pos _

end Program

/-- The threads with the calls that are left to them, the threads that they can join and
what their joins returned. -/
structure Process where
  scheduler : Scheduler
  code : Nat → Program
  handles : Nat → List Nat
  joined : Nat → List Int

namespace Process

def start (garbage : Int) (main : Program) : Process where
  scheduler := .initializeScheduler garbage
  code := Function.update (fun _ => .exit 0) 0 main
  handles := fun _ => []
  joined := fun _ => []

/-- The running thread makes its next call.  In `my_pthread_join` it goes on with the
loop at its next turn. -/
def step (p : Process) : Option Process := do
  let c ← p.scheduler.current
  match p.code c with
  | .exit valuePtr =>
      let s ← p.scheduler.step (.exit valuePtr)
      some { p with scheduler := s }
  | .yield rest =>
      let s ← p.scheduler.step .yield
      some { p with scheduler := s, code := Function.update p.code c rest }
  | .create stale child rest =>
      let thread := p.scheduler.threadIDS
      let s ← p.scheduler.step (.create stale)
      some
        { scheduler := s
          code := Function.update (Function.update p.code c rest) thread child
          handles := Function.update
            (Function.update p.handles c (thread :: p.handles c)) thread []
          joined := Function.update p.joined thread [] }
  | .join k rest =>
      let thread ← (p.handles c)[k]?
      let (s, _, value) ← p.scheduler.myPthreadJoin thread
      match value with
      | none => some { p with scheduler := s }
      | some value =>
          some
            { scheduler := s
              code := Function.update p.code c rest
              handles := Function.update p.handles c ((p.handles c).eraseIdx k)
              joined := Function.update p.joined c (p.joined c ++ [value]) }

def run (p : Process) : Nat → Option Process
  | 0 => some p
  | n + 1 => p.step.bind fun next => next.run n

end Process

namespace Process

/-- A thread that has not exited: `value` is what its exit will leave and `expected` what
all its joins return. -/
structure Fine (p : Process) (value : Nat → Int) (expected : Nat → List Int) (t : Nat) :
    Prop where
  wellFormed : (p.code t).WellFormed (p.handles t).length
  handles : ∀ u ∈ p.handles t,
    t < u ∧ u < p.scheduler.threadIDS ∧ p.scheduler.threads u ≠ none
  distinct : (p.handles t).Nodup
  result : ∃ stale, p.scheduler.threads t = some ⟨.active, stale⟩ ∧
    (p.code t).result stale = value t
  joined : p.joined t ++ (p.code t).returns ((p.handles t).map value) = expected t

structure Good (p : Process) (value : Nat → Int) (expected : Nat → List Int) : Prop where
  settled : ∃ exited, Scheduler.Settled exited p.scheduler
  fine : ∀ t ∈ p.scheduler.ready, p.Fine value expected t
  apart : ∀ t ∈ p.scheduler.ready, ∀ t' ∈ p.scheduler.ready,
    ∀ u ∈ p.handles t, u ∈ p.handles t' → t = t'
  returned : ∀ t thread, p.scheduler.threads t = some thread → t ∉ p.scheduler.ready →
    thread.returnValue = value t
  finished : ∀ t < p.scheduler.threadIDS, t ∉ p.scheduler.ready → p.joined t = expected t

variable {p next : Process} {value value' : Nat → Int} {expected expected' : Nat → List Int}
  {t c : Nat}

theorem Fine.keep (h : p.Fine value expected t) (hcode : next.code t = p.code t)
    (hhandles : next.handles t = p.handles t) (hjoined : next.joined t = p.joined t)
    (hthread : next.scheduler.threads t = p.scheduler.threads t)
    (halive : ∀ u ∈ p.handles t, next.scheduler.threads u ≠ none)
    (hids : p.scheduler.threadIDS ≤ next.scheduler.threadIDS)
    (hvalue : value' t = value t) (hvalues : ∀ u ∈ p.handles t, value' u = value u)
    (hexpected : expected' t = expected t) : next.Fine value' expected' t where
  wellFormed := by
    rw [hcode, hhandles]
    exact h.wellFormed
  handles u hu := by
    rw [hhandles] at hu
    obtain ⟨hlater, hlt, -⟩ := h.handles u hu
    exact ⟨hlater, Nat.lt_of_lt_of_le hlt hids, halive u hu⟩
  distinct := by
    rw [hhandles]
    exact h.distinct
  result := by
    rw [hcode, hthread, hvalue]
    exact h.result
  joined := by
    rw [hcode, hhandles, hjoined, hexpected, List.map_congr_left hvalues]
    exact h.joined

/-- The running thread goes to the end, with calls that come to the same. -/
theorem Good.rotate (h : p.Good value expected)
    (hsettled : ∃ exited, Scheduler.Settled exited next.scheduler)
    (hready : next.scheduler.ready.Perm p.scheduler.ready)
    (hthreads : next.scheduler.threads = p.scheduler.threads)
    (hids : next.scheduler.threadIDS = p.scheduler.threadIDS)
    (hhandles : next.handles = p.handles) (hjoined : next.joined = p.joined)
    (hcode : ∀ t, t ≠ c → next.code t = p.code t)
    (hwell : ∀ n, (p.code c).WellFormed n → (next.code c).WellFormed n)
    (hresult : ∀ stale, (next.code c).result stale = (p.code c).result stale)
    (hreturns : ∀ children, (next.code c).returns children = (p.code c).returns children) :
    next.Good value expected where
  settled := hsettled
  fine t ht := by
    have hfine := h.fine t (hready.mem_iff.mp ht)
    rcases Classical.em (t = c) with rfl | hne
    · exact
        { wellFormed := by
            rw [hhandles]
            exact hwell _ hfine.wellFormed
          handles := by
            rw [hhandles, hids, hthreads]
            exact hfine.handles
          distinct := by
            rw [hhandles]
            exact hfine.distinct
          result := by
            obtain ⟨stale, hthread, hvalue⟩ := hfine.result
            exact ⟨stale, by rw [hthreads, hthread], (hresult stale).trans hvalue⟩
          joined := by
            rw [hhandles, hjoined, hreturns]
            exact hfine.joined }
    · exact hfine.keep (hcode t hne) (by rw [hhandles]) (by rw [hjoined]) (by rw [hthreads])
        (fun u hu => by rw [hthreads]; exact (hfine.handles u hu).2.2) (Nat.le_of_eq hids.symm)
        rfl (fun _ _ => rfl) rfl
  apart t ht t' ht' u hu hu' := by
    rw [hhandles] at hu hu'
    exact h.apart t (hready.mem_iff.mp ht) t' (hready.mem_iff.mp ht') u hu hu'
  returned t thread hthread habsent := by
    rw [hthreads] at hthread
    exact h.returned t thread hthread fun ht => habsent (hready.mem_iff.mpr ht)
  finished t hlt habsent := by
    rw [hids] at hlt
    rw [hjoined]
    exact h.finished t hlt fun ht => habsent (hready.mem_iff.mpr ht)

theorem Good.exit (h : p.Good value expected) {valuePtr stale : Int} {rest : List Nat}
    (hready : p.scheduler.ready = c :: rest) (hcode : p.code c = .exit valuePtr)
    {s : Scheduler} (hsettled : ∃ exited, Scheduler.Settled exited s) (hrest : s.ready = rest)
    (hactive : p.scheduler.threads c = some ⟨.active, stale⟩)
    (hthreads : s.threads = Function.update p.scheduler.threads c
      (some ⟨.completed, if valuePtr ≠ 0 then valuePtr else stale⟩))
    (hids : s.threadIDS = p.scheduler.threadIDS) :
    Good { p with scheduler := s } value expected := by
  obtain ⟨exited, hold⟩ := h.settled
  have hdistinct := hold.consistent.distinct
  rw [hready, List.nodup_cons] at hdistinct
  have hmem : ∀ t ∈ rest, t ∈ p.scheduler.ready ∧ t ≠ c := by
    intro t ht
    refine ⟨hready ▸ List.mem_cons_of_mem _ ht, ?_⟩
    rintro rfl
    exact hdistinct.1 ht
  have hfine := h.fine c (hready ▸ List.mem_cons_self)
  have hother : ∀ t, t ∉ rest → t ≠ c → t ∉ p.scheduler.ready := by
    intro t habsent hne ht
    rw [hready] at ht
    exact habsent ((List.mem_cons.mp ht).resolve_left hne)
  refine ⟨hsettled, fun t ht => ?_, fun t ht t' ht' => ?_, fun t thread hthread habsent => ?_,
    fun t hlt habsent => ?_⟩
  · obtain ⟨hold, hne⟩ := hmem t (hrest ▸ ht)
    refine (h.fine t hold).keep rfl rfl rfl ?_ (fun u hu => ?_) (Nat.le_of_eq hids.symm) rfl
      (fun _ _ => rfl) rfl
    · rw [hthreads, Function.update_of_ne hne]
    · rw [hthreads]
      rcases Classical.em (u = c) with rfl | hu'
      · rw [Function.update_self]
        exact Option.some_ne_none _
      · rw [Function.update_of_ne hu']
        exact ((h.fine t hold).handles u hu).2.2
  · exact h.apart t (hmem t (hrest ▸ ht)).1 t' (hmem t' (hrest ▸ ht')).1
  · rw [hrest] at habsent
    rw [hthreads] at hthread
    rcases Classical.em (t = c) with rfl | hne
    · rw [Function.update_self] at hthread
      obtain ⟨held, hheld, hvalue⟩ := hfine.result
      obtain rfl : stale = held := congrArg Thread.returnValue
        (Option.some.inj (hactive.symm.trans hheld))
      rw [← Option.some.inj hthread, ← hvalue, hcode, Program.result]
    · rw [Function.update_of_ne hne] at hthread
      exact h.returned t thread hthread (hother t habsent hne)
  · rw [hrest] at habsent
    rcases Classical.em (t = c) with rfl | hne
    · have hjoined := hfine.joined
      rw [hcode, Program.returns, List.append_nil] at hjoined
      exact hjoined
    · exact h.finished t (Nat.lt_of_lt_of_eq hlt hids) (hother t habsent hne)

structure Created (p next : Process) (c fresh : Nat) (stale : Int) (child rest : Program) :
    Prop where
  ready : next.scheduler.ready.Perm (fresh :: p.scheduler.ready)
  threads : next.scheduler.threads =
    Function.update p.scheduler.threads fresh (some ⟨.active, stale⟩)
  threadIDS : next.scheduler.threadIDS = fresh + 1
  codeFresh : next.code fresh = child
  codeCreator : next.code c = rest
  codeOther : ∀ t, t ≠ fresh → t ≠ c → next.code t = p.code t
  handlesFresh : next.handles fresh = []
  handlesCreator : next.handles c = fresh :: p.handles c
  handlesOther : ∀ t, t ≠ fresh → t ≠ c → next.handles t = p.handles t
  joinedFresh : next.joined fresh = []
  joinedOther : ∀ t, t ≠ fresh → next.joined t = p.joined t

theorem Good.create (h : p.Good value expected) {fresh : Nat} {stale : Int}
    {child rest : Program} (hfresh : p.scheduler.threadIDS = fresh)
    (hc : c ∈ p.scheduler.ready) (hcode : p.code c = .create stale child rest)
    (hsettled : ∃ exited, Scheduler.Settled exited next.scheduler)
    (hcreated : Created p next c fresh stale child rest) :
    next.Good (Function.update value fresh (child.result stale))
      (Function.update expected fresh (child.returns [])) := by
  obtain ⟨exited, hold⟩ := h.settled
  have hlt : ∀ t ∈ p.scheduler.ready, t < fresh := fun t ht =>
    hfresh ▸ ((hold.consistent.ready_iff t).mp ht).1
  have hhandle : ∀ t ∈ p.scheduler.ready, ∀ u ∈ p.handles t, t < u ∧ u < fresh :=
    fun t ht u hu => ⟨((h.fine t ht).handles u hu).1, hfresh ▸ ((h.fine t ht).handles u hu).2.1⟩
  have halive : ∀ t ∈ p.scheduler.ready, ∀ u ∈ p.handles t,
      next.scheduler.threads u ≠ none := by
    intro t ht u hu
    rw [hcreated.threads, Function.update_of_ne (Nat.ne_of_lt (hhandle t ht u hu).2)]
    exact ((h.fine t ht).handles u hu).2.2
  have hvalues : ∀ t ∈ p.scheduler.ready, ∀ u ∈ p.handles t,
      Function.update value fresh (child.result stale) u = value u :=
    fun t ht u hu => Function.update_of_ne (Nat.ne_of_lt (hhandle t ht u hu).2) _ _
  have hcne : c ≠ fresh := Nat.ne_of_lt (hlt c hc)
  have hfine := h.fine c hc
  have hwell := hfine.wellFormed
  rw [hcode] at hwell
  have hnew : next.scheduler.threads fresh = some ⟨.active, stale⟩ := by
    rw [hcreated.threads, Function.update_self]
  refine ⟨hsettled, fun t ht => ?_, fun t ht t' ht' u hu hu' => ?_,
    fun t thread hthread habsent => ?_, fun t ht habsent => ?_⟩
  · rcases List.mem_cons.mp (hcreated.ready.mem_iff.mp ht) with rfl | ht
    · exact
        { wellFormed := by
            rw [hcreated.codeFresh, hcreated.handlesFresh]
            exact hwell.1
          handles := by
            rw [hcreated.handlesFresh]
            exact fun u hu => absurd hu List.not_mem_nil
          distinct := by
            rw [hcreated.handlesFresh]
            exact List.nodup_nil
          result := ⟨stale, hnew, by rw [hcreated.codeFresh, Function.update_self]⟩
          joined := by
            rw [hcreated.codeFresh, hcreated.handlesFresh, hcreated.joinedFresh,
              Function.update_self]
            rfl }
    have hne : t ≠ fresh := Nat.ne_of_lt (hlt t ht)
    have hsame : next.scheduler.threads t = p.scheduler.threads t := by
      rw [hcreated.threads, Function.update_of_ne hne]
    rcases Classical.em (t = c) with rfl | htc
    · exact
        { wellFormed := by
            rw [hcreated.codeCreator, hcreated.handlesCreator]
            exact hwell.2
          handles := by
            rw [hcreated.handlesCreator, hcreated.threadIDS]
            intro u hu
            rcases List.mem_cons.mp hu with rfl | hu
            · exact ⟨hlt t hc, Nat.lt_succ_self _, by rw [hnew]; exact Option.some_ne_none _⟩
            · obtain ⟨hlater, hbound⟩ := hhandle t hc u hu
              exact ⟨hlater, Nat.lt_succ_of_lt hbound, halive t hc u hu⟩
          distinct := by
            rw [hcreated.handlesCreator, List.nodup_cons]
            exact ⟨fun hmem => Nat.lt_irrefl _ (hhandle t hc _ hmem).2, hfine.distinct⟩
          result := by
            obtain ⟨held, hthread, hresult⟩ := hfine.result
            refine ⟨held, hsame.trans hthread, ?_⟩
            rw [hcreated.codeCreator, Function.update_of_ne hne, ← hresult, hcode,
              Program.result]
          joined := by
            have hjoined := hfine.joined
            rw [hcode, Program.returns] at hjoined
            rw [hcreated.codeCreator, hcreated.handlesCreator, hcreated.joinedOther t hne,
              Function.update_of_ne hne, List.map_cons, Function.update_self,
              List.map_congr_left (hvalues t hc)]
            exact hjoined }
    · exact (h.fine t ht).keep (hcreated.codeOther t hne htc) (hcreated.handlesOther t hne htc)
        (hcreated.joinedOther t hne) hsame (halive t ht)
        (by rw [hcreated.threadIDS, hfresh]; exact Nat.le_succ _)
        (Function.update_of_ne hne _ _) (hvalues t ht) (Function.update_of_ne hne _ _)
  · have hwhose : ∀ t ∈ next.scheduler.ready, u ∈ next.handles t →
        (t = c ∧ u = fresh) ∨ (t ∈ p.scheduler.ready ∧ u ∈ p.handles t) := by
      intro t ht hu
      rcases List.mem_cons.mp (hcreated.ready.mem_iff.mp ht) with rfl | ht
      · rw [hcreated.handlesFresh] at hu
        exact absurd hu List.not_mem_nil
      rcases Classical.em (t = c) with rfl | htc
      · rw [hcreated.handlesCreator] at hu
        rcases List.mem_cons.mp hu with rfl | hu
        · exact Or.inl ⟨rfl, rfl⟩
        · exact Or.inr ⟨ht, hu⟩
      · rw [hcreated.handlesOther t (Nat.ne_of_lt (hlt t ht)) htc] at hu
        exact Or.inr ⟨ht, hu⟩
    rcases hwhose t ht hu with ⟨rfl, rfl⟩ | ⟨hold, hu⟩
    · rcases hwhose t' ht' hu' with ⟨rfl, -⟩ | ⟨hold', hu'⟩
      · rfl
      · exact absurd (hhandle t' hold' _ hu').2 (Nat.lt_irrefl _)
    · rcases hwhose t' ht' hu' with ⟨-, rfl⟩ | ⟨hold', hu'⟩
      · exact absurd (hhandle t hold _ hu).2 (Nat.lt_irrefl _)
      · exact h.apart t hold t' hold' u hu hu'
  · rw [hcreated.ready.mem_iff, List.mem_cons, not_or] at habsent
    rw [hcreated.threads, Function.update_of_ne habsent.1] at hthread
    rw [Function.update_of_ne habsent.1]
    exact h.returned t thread hthread habsent.2
  · rw [hcreated.ready.mem_iff, List.mem_cons, not_or] at habsent
    have hold : t < fresh :=
      Nat.lt_of_le_of_ne (Nat.le_of_lt_succ (Nat.lt_of_lt_of_eq ht hcreated.threadIDS)) habsent.1
    rw [hcreated.joinedOther t habsent.1, Function.update_of_ne habsent.1]
    exact h.finished t (hfresh ▸ hold) habsent.2

structure Joined (p next : Process) (c k u : Nat) (valuePtr : Int) (rest : Program) :
    Prop where
  scheduler : next.scheduler = p.scheduler.setThread u none
  code : next.code c = rest
  codeOther : ∀ t, t ≠ c → next.code t = p.code t
  handles : next.handles c = (p.handles c).eraseIdx k
  handlesOther : ∀ t, t ≠ c → next.handles t = p.handles t
  joined : next.joined c = p.joined c ++ [valuePtr]
  joinedOther : ∀ t, t ≠ c → next.joined t = p.joined t

theorem Good.join (h : p.Good value expected) {k u : Nat} {rest : Program} {struct : Thread}
    (hc : c ∈ p.scheduler.ready) (hcode : p.code c = .join k rest)
    (hget : (p.handles c)[k]? = some u) (hstruct : p.scheduler.threads u = some struct)
    (hcompleted : struct.state = .completed)
    (hsettled : ∃ exited, Scheduler.Settled exited next.scheduler)
    (hjoin : Joined p next c k u struct.returnValue rest) : next.Good value expected := by
  have hready : next.scheduler.ready = p.scheduler.ready := by
    rw [hjoin.scheduler]
    rfl
  have hthreads : next.scheduler.threads = Function.update p.scheduler.threads u none := by
    rw [hjoin.scheduler]
    rfl
  have hids : next.scheduler.threadIDS = p.scheduler.threadIDS := by
    rw [hjoin.scheduler]
    rfl
  have hactive : ∀ t ∈ p.scheduler.ready, t ≠ u := by
    rintro t ht rfl
    obtain ⟨stale, hthread, -⟩ := (h.fine t ht).result
    rw [hstruct] at hthread
    rw [Option.some.inj hthread] at hcompleted
    cases hcompleted
  have hmem : u ∈ p.handles c := List.mem_of_getElem? hget
  have hfine := h.fine c hc
  have hwell := hfine.wellFormed
  rw [hcode] at hwell
  have hreturned : struct.returnValue = value u :=
    h.returned u struct hstruct fun hu => hactive u hu rfl
  have hkept : ∀ v ∈ (p.handles c).eraseIdx k, v ∈ p.handles c ∧ v ≠ u := by
    intro v hv
    obtain ⟨i, hi, hv⟩ := List.mem_eraseIdx_iff_getElem?.mp hv
    refine ⟨List.mem_of_getElem? hv, ?_⟩
    rintro rfl
    obtain ⟨hlt, -⟩ := List.getElem?_eq_some_iff.mp hv
    exact hi ((List.getElem?_inj hlt hfine.distinct).mp (hv.trans hget.symm))
  have halive : ∀ v, p.scheduler.threads v ≠ none → v ≠ u →
      next.scheduler.threads v ≠ none := by
    intro v hv hne
    rwa [hthreads, Function.update_of_ne hne]
  have hsame : ∀ t ∈ p.scheduler.ready,
      next.scheduler.threads t = p.scheduler.threads t := by
    intro t ht
    rw [hthreads, Function.update_of_ne (hactive t ht)]
  refine ⟨hsettled, fun t ht => ?_, fun t ht t' ht' v hv hv' => ?_,
    fun t thread hthread habsent => ?_, fun t ht habsent => ?_⟩
  · rw [hready] at ht
    rcases Classical.em (t = c) with rfl | hne
    · exact
        { wellFormed := by
            rw [hjoin.code, hjoin.handles, List.length_eraseIdx_of_lt hwell.1]
            exact hwell.2
          handles := by
            rw [hjoin.handles, hids]
            intro v hv
            obtain ⟨hv, hne⟩ := hkept v hv
            obtain ⟨hlater, hlt, hlives⟩ := hfine.handles v hv
            exact ⟨hlater, hlt, halive v hlives hne⟩
          distinct := by
            rw [hjoin.handles]
            exact hfine.distinct.eraseIdx k
          result := by
            obtain ⟨stale, hthread, hresult⟩ := hfine.result
            rw [hjoin.code]
            exact ⟨stale, (hsame t ht).trans hthread, by rw [← hresult, hcode, Program.result]⟩
          joined := by
            have hjoined := hfine.joined
            rw [hcode, Program.returns, List.getElem?_map, hget] at hjoined
            rw [hjoin.code, hjoin.handles, hjoin.joined, hreturned, ← List.eraseIdx_map,
              List.append_assoc]
            exact hjoined }
    · refine (h.fine t ht).keep (hjoin.codeOther t hne) (hjoin.handlesOther t hne)
        (hjoin.joinedOther t hne) (hsame t ht) (fun v hv => ?_) (Nat.le_of_eq hids.symm) rfl
        (fun _ _ => rfl) rfl
      refine halive v ((h.fine t ht).handles v hv).2.2 ?_
      rintro rfl
      exact hne (h.apart t ht c hc v hv hmem)
  · rw [hready] at ht ht'
    have hold : ∀ t, v ∈ next.handles t → v ∈ p.handles t := by
      intro t hv
      rcases Classical.em (t = c) with rfl | hne
      · rw [hjoin.handles] at hv
        exact (hkept v hv).1
      · rwa [hjoin.handlesOther t hne] at hv
    exact h.apart t ht t' ht' v (hold t hv) (hold t' hv')
  · rw [hready] at habsent
    rw [hthreads] at hthread
    rcases Classical.em (t = u) with rfl | hne
    · rw [Function.update_self] at hthread
      cases hthread
    · rw [Function.update_of_ne hne] at hthread
      exact h.returned t thread hthread habsent
  · rw [hready] at habsent
    have hne : t ≠ c := by
      rintro rfl
      exact habsent hc
    rw [hjoin.joinedOther t hne]
    exact h.finished t (Nat.lt_of_lt_of_eq ht hids) habsent

def work (p : Process) : Nat :=
  (p.scheduler.ready.map fun t => (p.code t).size).sum

/-- The thread `t` is in the loop of `my_pthread_join`. -/
def Waits (p : Process) (t : Nat) : Prop :=
  ∃ k rest u struct, p.code t = .join k rest ∧ (p.handles t)[k]? = some u ∧
    p.scheduler.threads u = some struct ∧ struct.state ≠ .completed

structure Waited (p next : Process) (c : Nat) : Prop where
  waits : p.Waits c
  code : next.code = p.code
  handles : next.handles = p.handles
  threads : next.scheduler.threads = p.scheduler.threads
  ready : ∃ rest, p.scheduler.ready = c :: rest ∧ next.scheduler.ready = rest ++ [c]

theorem work_lt {front rest : List Nat} (hready : p.scheduler.ready = c :: rest)
    (hnext : next.scheduler.ready.Perm (front ++ rest))
    (hothers : ∀ t ∈ rest, next.code t = p.code t)
    (hfront : (front.map fun t => (next.code t).size).sum < (p.code c).size) :
    next.work < p.work := by
  have hrest : rest.map (fun t => (next.code t).size) = rest.map fun t => (p.code t).size :=
    List.map_congr_left fun t ht => congrArg Program.size (hothers t ht)
  rw [work, work, (hnext.map _).sum_eq, hready, List.map_append, List.sum_append, hrest,
    List.map_cons, List.sum_cons]
  omega

theorem Waited.work (h : Waited p next c) : next.work = p.work := by
  obtain ⟨rest, hready, hnext⟩ := h.ready
  rw [Process.work, Process.work, h.code, hready, hnext]
  exact ((List.perm_append_singleton c rest).map _).sum_eq

structure Steps (p next : Process) (expected : Nat → List Int) (c : Nat) : Prop where
  good : ∃ value' expected', next.Good value' expected' ∧
    ∀ t < p.scheduler.threadIDS, expected' t = expected t
  threadIDS : p.scheduler.threadIDS ≤ next.scheduler.threadIDS
  works : next.work < p.work ∨ Waited p next c

section

variable {rest : List Nat}

theorem Good.others (h : p.Good value expected) (hready : p.scheduler.ready = c :: rest) :
    ∀ t ∈ rest, t ≠ c := by
  rintro t ht rfl
  obtain ⟨exited, hsettled⟩ := h.settled
  have hdistinct := hsettled.consistent.distinct
  rw [hready, List.nodup_cons] at hdistinct
  exact hdistinct.1 ht

theorem Good.step_exit (h : p.Good value expected) (hc : p.scheduler.current = some c)
    (hready : p.scheduler.ready = c :: rest) {valuePtr : Int}
    (hcode : p.code c = .exit valuePtr) :
    ∃ next, p.step = some next ∧ Steps p next expected c := by
  obtain ⟨exited, hsettled⟩ := h.settled
  obtain ⟨s, hstep, hnext⟩ :=
    Scheduler.step_settled hsettled hc
      (show Scheduler.Op.Allowed p.scheduler (.exit valuePtr) from trivial)
  obtain ⟨⟨held, hactive, hthreads⟩, hids⟩ := hsettled.exit_threads hc hstep
  have hleft : s.ready = rest := by
    generalize hlist : s.ready = list
    have hturn := hlist ▸ hsettled.turn hc hstep
    cases hturn with
    | leave _ hold => exact (List.cons.inj (hold.symm.trans hready)).2
  refine ⟨{ p with scheduler := s }, by simp [Process.step, hc, hcode, hstep],
    ⟨value, expected, h.exit hready hcode ⟨_, hnext⟩ hleft hactive hthreads hids,
      fun _ _ => rfl⟩, Nat.le_of_eq hids.symm, Or.inl ?_⟩
  have hnone : s.ready.Perm ([] ++ rest) := List.Perm.of_eq hleft
  refine work_lt hready hnone (fun _ _ => rfl) ?_
  rw [hcode]
  exact Nat.one_pos

theorem Good.step_yield (h : p.Good value expected) (hc : p.scheduler.current = some c)
    (hready : p.scheduler.ready = c :: rest) {after : Program}
    (hcode : p.code c = .yield after) :
    ∃ next, p.step = some next ∧ Steps p next expected c := by
  obtain ⟨exited, hsettled⟩ := h.settled
  obtain ⟨s, hstep, hnext⟩ := Scheduler.step_settled hsettled hc
    (show Scheduler.Op.Allowed p.scheduler .yield from trivial)
  have hturned : s.ready = rest ++ [c] := by
    generalize hlist : s.ready = list
    have hturn := hlist ▸ hsettled.turn hc hstep
    cases hturn with
    | yield hold =>
        obtain ⟨rfl, rfl⟩ := List.cons.inj (hold.symm.trans hready)
        rfl
  obtain ⟨pair, hyield, heq⟩ := Option.map_eq_some_iff.mp hstep
  obtain ⟨hthreads, hids⟩ := heq ▸ hsettled.yield_threads hyield
  let next : Process := { p with scheduler := s, code := Function.update p.code c after }
  have hafter : next.code c = after := Function.update_self _ _ _
  have hsame : ∀ t, t ≠ c → next.code t = p.code t := fun t ht =>
    Function.update_of_ne ht _ _
  have hperm : next.scheduler.ready.Perm ([c] ++ rest) := by
    rw [show next.scheduler.ready = rest ++ [c] from hturned]
    exact List.perm_append_singleton c rest
  refine ⟨next, by simp [Process.step, hc, hcode, hstep, next], ⟨value, expected,
    h.rotate (c := c) ⟨_, hnext⟩ (hready ▸ hperm) hthreads hids rfl rfl hsame ?_ ?_ ?_,
    fun _ _ => rfl⟩, Nat.le_of_eq hids.symm, Or.inl ?_⟩
  · rw [hcode, hafter]
    exact fun n hwell => hwell
  · rw [hcode, hafter]
    exact fun stale => rfl
  · rw [hcode, hafter]
    exact fun children => rfl
  · refine work_lt hready hperm (fun t ht => hsame t (h.others hready t ht)) ?_
    rw [List.map_singleton, List.sum_singleton, hafter, hcode]
    exact Nat.lt_succ_self _

theorem Good.step_create (h : p.Good value expected) (hc : p.scheduler.current = some c)
    (hready : p.scheduler.ready = c :: rest) {stale : Int} {child after : Program}
    (hcode : p.code c = .create stale child after) :
    ∃ next, p.step = some next ∧ Steps p next expected c := by
  obtain ⟨exited, hsettled⟩ := h.settled
  obtain ⟨s, hstep, hnext⟩ := Scheduler.step_settled hsettled hc
    (show Scheduler.Op.Allowed p.scheduler (.create stale) from trivial)
  generalize hfresh : p.scheduler.threadIDS = fresh
  have hadded : s.ready.Perm ([fresh, c] ++ rest) := by
    generalize hlist : s.ready = list
    have hturn := hlist ▸ hsettled.turn hc hstep
    cases hturn with
    | before _ => rw [hready, hfresh]; exact List.Perm.refl _
    | behind _ hold =>
        obtain ⟨rfl, rfl⟩ := List.cons.inj (hold.symm.trans hready)
        rw [hfresh]
        refine (List.perm_append_singleton _ _).trans (.trans (.cons _ ?_) (.swap _ _ _))
        rw [List.append_assoc]
        exact List.perm_middle
  obtain ⟨hthreads, hids⟩ := hsettled.steady.create_threads hc hstep
  have hmem : c ∈ p.scheduler.ready := hready ▸ List.mem_cons_self
  have hlt : ∀ t ∈ p.scheduler.ready, t ≠ fresh := fun t ht =>
    Nat.ne_of_lt (hfresh ▸ ((hsettled.consistent.ready_iff t).mp ht).1)
  let next : Process :=
    { scheduler := s
      code := Function.update (Function.update p.code c after) fresh child
      handles := Function.update (Function.update p.handles c (fresh :: p.handles c)) fresh []
      joined := Function.update p.joined fresh [] }
  have hcreated : Created p next c fresh stale child after :=
    { ready := by rw [hready]; exact hadded
      threads := hfresh ▸ hthreads
      threadIDS := hfresh ▸ hids
      codeFresh := Function.update_self _ _ _
      codeCreator := (Function.update_of_ne (hlt c hmem) _ _).trans (Function.update_self _ _ _)
      codeOther := fun t hne hother =>
        (Function.update_of_ne hne _ _).trans (Function.update_of_ne hother _ _)
      handlesFresh := Function.update_self _ _ _
      handlesCreator :=
        (Function.update_of_ne (hlt c hmem) _ _).trans (Function.update_self _ _ _)
      handlesOther := fun t hne hother =>
        (Function.update_of_ne hne _ _).trans (Function.update_of_ne hother _ _)
      joinedFresh := Function.update_self _ _ _
      joinedOther := fun t hne => Function.update_of_ne hne _ _ }
  refine ⟨next, by simp [Process.step, hc, hcode, hstep, next, hfresh],
    ⟨_, _, h.create hfresh hmem hcode ⟨_, hnext⟩ hcreated, fun t ht =>
      Function.update_of_ne (Nat.ne_of_lt (hfresh ▸ ht)) _ _⟩, ?_, Or.inl ?_⟩
  · rw [hids]
    exact Nat.le_succ _
  · refine work_lt hready hadded (fun t ht => hcreated.codeOther t
      (hlt t (hready ▸ List.mem_cons_of_mem _ ht)) (h.others hready t ht)) ?_
    simp only [List.map_cons, List.map_nil, List.sum_cons, List.sum_nil, hcreated.codeFresh,
      hcreated.codeCreator, hcode, Program.size]
    omega

theorem Good.step_join (h : p.Good value expected) (hc : p.scheduler.current = some c)
    (hready : p.scheduler.ready = c :: rest) {k : Nat} {after : Program}
    (hcode : p.code c = .join k after) :
    ∃ next, p.step = some next ∧ Steps p next expected c := by
  obtain ⟨exited, hsettled⟩ := h.settled
  have hmem : c ∈ p.scheduler.ready := hready ▸ List.mem_cons_self
  have hfine := h.fine c hmem
  have hwell := hfine.wellFormed
  rw [hcode] at hwell
  obtain ⟨u, hget⟩ : ∃ u, (p.handles c)[k]? = some u := ⟨_, List.getElem?_eq_getElem hwell.1⟩
  obtain ⟨struct, hstruct⟩ := Option.ne_none_iff_exists'.mp
    (hfine.handles u (List.mem_of_getElem? hget)).2.2
  rcases Classical.em (struct.state = .completed) with hcompleted | hwaiting
  · let next : Process :=
      { scheduler := p.scheduler.setThread u none
        code := Function.update p.code c after
        handles := Function.update p.handles c ((p.handles c).eraseIdx k)
        joined := Function.update p.joined c (p.joined c ++ [struct.returnValue]) }
    have hjoin : Joined p next c k u struct.returnValue after :=
      { scheduler := rfl
        code := Function.update_self _ _ _
        codeOther := fun t hne => Function.update_of_ne hne _ _
        handles := Function.update_self _ _ _
        handlesOther := fun t hne => Function.update_of_ne hne _ _
        joined := Function.update_self _ _ _
        joinedOther := fun t hne => Function.update_of_ne hne _ _ }
    have hreturns : p.scheduler.myPthreadJoin u =
        some (p.scheduler.setThread u none, .stay, some struct.returnValue) := by
      simp [Scheduler.myPthreadJoin, hstruct, hcompleted]
    obtain ⟨s, hstep, hnext⟩ := Scheduler.step_settled hsettled hc
      (show Scheduler.Op.Allowed p.scheduler (.join u) from ⟨struct, hstruct⟩)
    rw [Scheduler.step, hreturns] at hstep
    obtain rfl := Option.some.inj hstep
    refine ⟨next, by simp [Process.step, hc, hcode, hget, hreturns, next],
      ⟨_, _, h.join hmem hcode hget hstruct hcompleted ⟨_, hnext⟩ hjoin, fun _ _ => rfl⟩,
      Nat.le_refl _, Or.inl ?_⟩
    have hsame : next.scheduler.ready.Perm ([c] ++ rest) := List.Perm.of_eq hready
    refine work_lt hready hsame (fun t ht => hjoin.codeOther t (h.others hready t ht)) ?_
    rw [List.map_singleton, List.sum_singleton, hjoin.code, hcode]
    exact Nat.lt_succ_self _
  · obtain ⟨s, switch, hyield, hturned⟩ := Scheduler.yield_ready hsettled hready
    obtain ⟨hthreads, hids⟩ := hsettled.yield_threads hyield
    have hwaits : p.scheduler.myPthreadJoin u = some (s, switch, none) := by
      simp [Scheduler.myPthreadJoin, hstruct, hwaiting, hyield]
    obtain ⟨_, hstep, hnext⟩ := Scheduler.step_settled hsettled hc
      (show Scheduler.Op.Allowed p.scheduler (.join u) from ⟨struct, hstruct⟩)
    rw [Scheduler.step, hwaits] at hstep
    obtain rfl := Option.some.inj hstep
    have hperm : s.ready.Perm p.scheduler.ready := by
      rw [hturned, hready]
      exact List.perm_append_singleton c rest
    exact ⟨{ p with scheduler := s }, by simp [Process.step, hc, hcode, hget, hwaits],
      ⟨_, _, h.rotate (c := c) ⟨_, hnext⟩ hperm hthreads hids rfl rfl (fun _ _ => rfl)
        (fun _ hwell => hwell) (fun _ => rfl) (fun _ => rfl), fun _ _ => rfl⟩,
      Nat.le_of_eq hids.symm,
      Or.inr ⟨⟨k, after, u, struct, hcode, hget, hstruct, hwaiting⟩, rfl, rfl, hthreads,
        rest, hready, hturned⟩⟩

end

theorem Good.step (h : p.Good value expected) (hc : p.scheduler.current = some c) :
    ∃ next, p.step = some next ∧ Steps p next expected c := by
  obtain ⟨exited, hsettled⟩ := h.settled
  obtain ⟨rest, hready⟩ := hsettled.ready_cons hc
  cases hcode : p.code c with
  | exit valuePtr => exact h.step_exit hc hready hcode
  | yield after => exact h.step_yield hc hready hcode
  | create stale child after => exact h.step_create hc hready hcode
  | join k after => exact h.step_join hc hready hcode

/-- The youngest thread waits for none: those that it could join have all exited. -/
theorem Good.exists_working (h : p.Good value expected) (hready : p.scheduler.ready ≠ []) :
    ∃ t ∈ p.scheduler.ready, ¬ p.Waits t := by
  obtain ⟨t, ht, hmax⟩ := p.scheduler.ready.toFinset.exists_max_image id
    (List.toFinset_nonempty_iff _ |>.mpr hready)
  rw [List.mem_toFinset] at ht
  refine ⟨t, ht, ?_⟩
  rintro ⟨k, after, u, struct, hcode, hget, hstruct, hwaiting⟩
  have hlater := ((h.fine t ht).handles u (List.mem_of_getElem? hget)).1
  obtain ⟨exited, hsettled⟩ := h.settled
  refine hwaiting (hsettled.consistent.completed u struct hstruct fun hu => ?_)
  exact Nat.not_lt.mpr (hmax u (List.mem_toFinset.mpr hu)) hlater

theorem run_add (m n : Nat) : ∀ p : Process, p.run (m + n) = (p.run m).bind (·.run n) := by
  induction m with
  | zero =>
      intro p
      rw [Nat.zero_add]
      rfl
  | succ m ih =>
      intro p
      rw [Nat.succ_add, run, run, Option.bind_assoc]
      exact congrArg _ (funext ih)

structure Reaches (p next : Process) (expected : Nat → List Int) (n : Nat) : Prop where
  run : p.run n = some next
  good : ∃ value' expected', next.Good value' expected' ∧
    ∀ t < p.scheduler.threadIDS, expected' t = expected t
  threadIDS : p.scheduler.threadIDS ≤ next.scheduler.threadIDS

theorem Reaches.before {mid : Process} {m n : Nat} (h : Reaches mid next expected' n)
    (hrun : p.run m = some mid)
    (hsame : ∀ t < p.scheduler.threadIDS, expected' t = expected t)
    (hids : p.scheduler.threadIDS ≤ mid.scheduler.threadIDS) :
    Reaches p next expected (m + n) := by
  obtain ⟨value, others, hgood, hagree⟩ := h.good
  refine ⟨?_, ⟨value, others, hgood, fun t ht => ?_⟩, Nat.le_trans hids h.threadIDS⟩
  · rw [run_add, hrun]
    exact h.run
  · exact (hagree t (Nat.lt_of_lt_of_le ht hids)).trans (hsame t ht)

theorem run_one (h : p.step = some next) : p.run 1 = some next := by
  rw [run, h]
  rfl

/-- A thread that waits goes behind one that does not. -/
theorem Waited.closer (h : Waited p next c) (ht : t ∈ p.scheduler.ready)
    (hworks : ¬ p.Waits t) : t ∈ next.scheduler.ready ∧ ¬ next.Waits t ∧
      next.scheduler.ahead t + 1 = p.scheduler.ahead t := by
  have hne : c ≠ t := by
    rintro rfl
    exact hworks h.waits
  obtain ⟨rest, hready, hnext⟩ := h.ready
  rw [hready] at ht
  have hmem := (List.mem_cons.mp ht).resolve_left hne.symm
  refine ⟨hnext ▸ List.mem_append_left _ hmem, ?_, ?_⟩
  · rw [Waits, h.code, h.handles, h.threads]
    exact hworks
  · rw [Scheduler.ahead, Scheduler.ahead, hnext, hready, List.idxOf_append_of_mem hmem,
      List.idxOf_cons_ne _ hne]

theorem Good.running (h : p.Good value expected) (ht : t ∈ p.scheduler.ready) :
    ∃ c, p.scheduler.current = some c := by
  obtain ⟨exited, hsettled⟩ := h.settled
  rw [hsettled.running]
  exact ⟨_, List.head?_eq_some_head (List.ne_nil_of_mem ht)⟩

theorem Good.current_mem (h : p.Good value expected) (hc : p.scheduler.current = some c) :
    c ∈ p.scheduler.ready := by
  obtain ⟨exited, hsettled⟩ := h.settled
  exact hsettled.current_mem c hc

/-- A thread that does not wait has its turn after those ahead of it, unless one of
these makes its next call before. -/
theorem Good.works (i : Nat) : ∀ {p : Process} {value : Nat → Int} {expected : Nat → List Int},
    p.Good value expected → t ∈ p.scheduler.ready → ¬ p.Waits t → p.scheduler.ahead t = i →
      ∃ n ≤ i + 1, ∃ next, Reaches p next expected n ∧ next.work < p.work := by
  induction i with
  | zero =>
      intro p value expected h ht hworks hahead
      obtain ⟨c, hc⟩ := h.running ht
      obtain ⟨next, hstep, hsteps⟩ := h.step hc
      rcases hsteps.works with hless | hwaited
      · exact ⟨1, Nat.le_refl _, next, ⟨run_one hstep, hsteps.good, hsteps.threadIDS⟩, hless⟩
      · obtain ⟨-, -, hcloser⟩ := hwaited.closer ht hworks
        omega
  | succ i ih =>
      intro p value expected h ht hworks hahead
      obtain ⟨c, hc⟩ := h.running ht
      obtain ⟨mid, hstep, hsteps⟩ := h.step hc
      rcases hsteps.works with hless | hwaited
      · exact ⟨1, Nat.le_add_left _ _, mid, ⟨run_one hstep, hsteps.good, hsteps.threadIDS⟩,
          hless⟩
      · obtain ⟨hmem, hstill, hcloser⟩ := hwaited.closer ht hworks
        obtain ⟨value', expected', hmid, hsame⟩ := hsteps.good
        obtain ⟨n, hn, next, hreaches, hless⟩ := ih hmid hmem hstill (by omega)
        exact ⟨1 + n, by omega, next,
          hreaches.before (run_one hstep) hsame hsteps.threadIDS, hwaited.work ▸ hless⟩

theorem length_le_work (p : Process) : p.scheduler.ready.length ≤ p.work := by
  rw [work, ← List.length_map fun t => (p.code t).size]
  refine List.length_le_sum_of_one_le _ fun size hsize => ?_
  obtain ⟨t, -, rfl⟩ := List.mem_map.mp hsize
  exact (p.code t).size_pos

theorem Good.ends (w : Nat) : ∀ {p : Process} {value : Nat → Int} {expected : Nat → List Int},
    p.Good value expected → p.work ≤ w →
      ∃ n ≤ w * w, ∃ last, Reaches p last expected n ∧ last.scheduler.ready = [] := by
  induction w with
  | zero =>
      intro p value expected h hw
      have hnone := List.eq_nil_of_length_eq_zero
        (Nat.le_zero.mp (Nat.le_trans p.length_le_work hw))
      exact ⟨0, Nat.le_refl _, p, ⟨rfl, ⟨_, _, h, fun _ _ => rfl⟩, Nat.le_refl _⟩, hnone⟩
  | succ w ih =>
      intro p value expected h hw
      rcases Classical.em (p.scheduler.ready = []) with hnone | hready
      · exact ⟨0, Nat.zero_le _, p, ⟨rfl, ⟨_, _, h, fun _ _ => rfl⟩, Nat.le_refl _⟩, hnone⟩
      · obtain ⟨t, ht, hworks⟩ := h.exists_working hready
        obtain ⟨m, hm, mid, hmid, hless⟩ := h.works (p.scheduler.ahead t) ht hworks rfl
        obtain ⟨value', expected', hgood, hsame⟩ := hmid.good
        obtain ⟨n, hn, last, hlast, hnone⟩ := ih hgood (by omega)
        refine ⟨m + n, ?_, last, hlast.before hmid.run hsame hmid.threadIDS, hnone⟩
        have hahead : p.scheduler.ahead t < p.scheduler.ready.length :=
          List.idxOf_lt_length_of_mem ht
        have hlength := p.length_le_work
        have hsquare : (w + 1) * (w + 1) = w * w + w + (w + 1) := by
          rw [Nat.succ_mul, Nat.mul_succ]
        omega

end Process

end RutgersOS.Assignment2
