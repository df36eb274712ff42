import RutgersOS.Assignment2.Exits
import RutgersOS.Assignment2.FaultHandling
import RutgersOS.Assignment2.NewHeap
import RutgersOS.Assignment2.UserHeap

namespace RutgersOS.Assignment2.Paging

open RutgersOS.Memory RutgersOS.Pthread

/-! Each thread as if it had a user memory of its own. -/

theorem index_lt (address : Int) : (address % pageSize).toNat < 4096 := by
  simp only [pageSize]
  omega

def indexInPage (address : Int) : Fin 4096 :=
  ⟨(address % pageSize).toNat, index_lt address⟩

/-- A byte of a thread, in whichever frame its page is. -/
def byteAt (s : Paging) (t : Nat) (address : Int) : Option UInt8 :=
  (s.logicalMemory (t, pageOf address)).map (· (indexInPage address))

theorem frameAddress_add_index {address : Int} (hlow : 0 ≤ address) :
    frameAddress (pageOf address) + (indexInPage address : Nat) = address := by
  simp only [frameAddress, pageOf, indexInPage, pageSize]
  omega

theorem pageOf_frame {frame : Nat} (offset : Fin 4096) :
    pageOf (frameAddress frame + offset) = frame := by
  have hoffset := offset.isLt
  simp only [frameAddress, pageOf, pageSize]
  omega

theorem byteAt_eq_some {s : Paging} {t : Nat} {address : Int} {byte : UInt8} :
    s.byteAt t address = some byte ↔ ∃ frame, s.place (t, pageOf address) = some frame ∧
      s.content frame (indexInPage address) = byte := by
  unfold byteAt logicalMemory logical
  simp only [Option.map_eq_some_iff]
  constructor
  · rintro ⟨bytes, ⟨frame, hframe, rfl⟩, hbyte⟩
    exact ⟨frame, hframe, hbyte⟩
  · rintro ⟨frame, hframe, hbyte⟩
    exact ⟨_, ⟨frame, hframe, rfl⟩, hbyte⟩

theorem Owned.byteAt_iff {s : Paging} (howned : s.Owned) {c : Nat}
    (hcurrent : s.scheduler.current = some c) {address : Int} {byte : UInt8}
    (hlow : 0 ≤ address) (hhigh : address < usrSize) :
    s.byteAt c address = some byte ↔
      s.place (c, pageOf address) = some (pageOf address) ∧ s.memory address = byte := by
  have hpage : pageOf address < memoryPages := page_of_address hlow hhigh
  have hbyte : s.content (pageOf address) (indexInPage address) = s.memory address := by
    rw [content, if_pos hpage]
    exact congrArg s.memory (frameAddress_add_index hlow)
  rw [byteAt_eq_some]
  constructor
  · rintro ⟨frame, hframe, hcontent⟩
    obtain rfl := howned.inPlace c hcurrent _ frame hframe
    exact ⟨hframe, hbyte.symm.trans hcontent⟩
  · rintro ⟨hframe, hcontent⟩
    exact ⟨_, hframe, hbyte.trans hcontent⟩

def KeepsPages (s next : Paging) : Prop :=
  ∀ key bytes, s.logicalMemory key = some bytes → next.logicalMemory key = some bytes

theorem logicalMemory_eq_some {s : Paging} {key : Nat × Nat} {bytes : Fin 4096 → UInt8} :
    s.logicalMemory key = some bytes ↔
      ∃ frame, s.place key = some frame ∧ s.content frame = bytes :=
  Option.map_eq_some_iff

namespace KeepsPages

variable {s mid next : Paging}

theorem of_eq (h : next.logicalMemory = s.logicalMemory) : KeepsPages s next := by
  intro key bytes hbytes
  rw [h]
  exact hbytes

theorem trans (h : KeepsPages s mid) (h' : KeepsPages mid next) : KeepsPages s next :=
  fun key bytes hbytes => h' key bytes (h key bytes hbytes)

theorem byteAt (h : KeepsPages s next) {t : Nat} {address : Int} {byte : UInt8}
    (hbyte : s.byteAt t address = some byte) : next.byteAt t address = some byte := by
  obtain ⟨bytes, hbytes, rfl⟩ := Option.map_eq_some_iff.mp hbyte
  exact Option.map_eq_some_iff.mpr ⟨bytes, h _ bytes hbytes, rfl⟩

end KeepsPages

section Faults

variable {s next : Paging} {c : Nat} (hcurrent : s.scheduler.current = some c)
  (htabled : s.Tabled) (howned : s.Owned)

include hcurrent htabled howned

theorem segHandler_keeps {table f : Nat} (htable : s.tableOf c = some table)
    (hf : f < memoryPages) (habsent : s.place (c, f) = none)
    (hfound : s.masterTable f = true → s.Findable f) (hstored : s.Stored)
    (h : s.segHandler f = some next) : KeepsPages s next ∧ next.place (c, f) = some f := by
  cases hused : s.masterTable f with
  | false =>
      obtain ⟨other, hother, hhandled⟩ :=
        segHandler_free hcurrent htable htabled howned hf hused
      obtain rfl := Option.some.inj (hother.symm.trans h)
      rw [segHandler_eq hcurrent htable, if_pos hused] at h
      obtain rfl := Option.some.inj h
      refine ⟨?_, hhandled.placed⟩
      intro key bytes hbytes
      obtain ⟨frame, hframe, hcontent⟩ := logicalMemory_eq_some.mp hbytes
      refine logicalMemory_eq_some.mpr ⟨frame, ?_, hcontent⟩
      rw [hhandled.kept key ?_ ?_]
      · exact hframe
      · rintro rfl
        rw [habsent] at hframe
        cases hframe
      · intro hheld
        rw [howned.framed.used_of_place hheld] at hused
        cases hused
  | true =>
      obtain ⟨i, other, j, hslot, hscan, hlive, hbefore⟩ := hfound hused
      obtain ⟨-, hj, hcell⟩ := scanEntries_found memoryPages hscan
      obtain ⟨t, owner, q, howner, hq, heq, hplace⟩ :=
        place_of_liveCell hlive hcell (lt_unmapped (page_lt_total hf))
      have hi : i < s.scheduler.threadIDS := by
        refine Nat.not_le.mp fun hle => ?_
        rw [htabled.beyond i hle] at hslot
        cases hslot
      have hcount := htabled.count
      rw [segHandler_eq hcurrent htable, if_neg (by rw [hused]; decide),
        scanTables_found (fun k hk => htabled.slots.below k (Nat.lt_trans hk hi)) hslot
          hscan hbefore maxThreads (Nat.zero_le i) (by omega)] at h
      obtain ⟨mid, hmid, hsome⟩ := Option.bind_eq_some_iff.mp h
      obtain rfl := Option.some.inj hsome
      rw [heq] at hmid hcell
      obtain ⟨free, htaken⟩ := takeFrame_spec htabled htable howned.framed hf habsent howner
        hq hcell hmid
      refine ⟨?_, htaken.placed⟩
      obtain ⟨hmoved, hothers⟩ := htaken.content (hstored free htaken.free)
      intro key bytes hbytes
      obtain ⟨frame, hframe, hcontent⟩ := logicalMemory_eq_some.mp hbytes
      rcases Classical.em (key = (t, q)) with rfl | hne
      · obtain rfl := Option.some.inj (hframe.symm.trans hplace)
        exact logicalMemory_eq_some.mpr ⟨free, htaken.moved, hmoved.trans hcontent⟩
      · refine logicalMemory_eq_some.mpr ⟨frame, ?_, ?_⟩
        · refine (htaken.kept key ?_ hne).trans hframe
          rintro rfl
          rw [habsent] at hframe
          cases hframe
        · refine (hothers frame ?_ ?_).trans hcontent
          · rintro rfl
            exact hne (howned.framed.separate _ _ _ hframe hplace)
          · rintro rfl
            exact (howned.framed.vacant (nextFreePage_spec htaken.free).2.1).1 key hframe

def OwnPage (s : Paging) (address : Int) : Prop :=
  0 ≤ address → address < usrSize → ∀ c, s.scheduler.current = some c →
    s.accessible (pageOf address) = true →
      s.place (c, pageOf address) = some (pageOf address)

theorem touch_keeps {address : Int} (halive : s.scheduler.Alive c)
    (hsafe : s.AccessSafe address) (hstored : s.Stored) (h : s.touch address = some next) :
    KeepsPages s next ∧ (s.OwnPage address → 0 ≤ address → address < usrSize →
      next.place (c, pageOf address) = some (pageOf address)) := by
  obtain ⟨hlow, hhigh, ⟨hopen, rfl⟩ | ⟨hclosed, hfault⟩⟩ := touch_cases h
  · exact ⟨.of_eq rfl, fun hown hlow hhigh => hown hlow hhigh c hcurrent hopen⟩
  · obtain ⟨hf, habsent, hfound⟩ := (hsafe hlow hhigh).resolve_left fun hopen => by
      rw [hclosed] at hopen
      cases hopen
    obtain ⟨table, htable, -⟩ := htabled.table halive
    obtain ⟨hkeeps, hplaced⟩ := segHandler_keeps hcurrent htabled howned htable hf
      (habsent c hcurrent) hfound hstored hfault
    exact ⟨hkeeps, fun _ _ _ => hplaced⟩

theorem mapPage_keeps {table i : Nat} (htable : s.tableOf c = some table)
    (hsafe : s.MapSafe i) (hstored : s.Stored) (h : s.mapPage table i = some next) :
    KeepsPages s next := by
  obtain ⟨hi, ⟨-, -, rfl⟩ | ⟨mid, hmid, rfl⟩⟩ := mapPage_cases h
  · exact .of_eq rfl
  · obtain ⟨habsent, hcleared⟩ := mapPage_clears htabled howned hcurrent htable hi hsafe hmid
    have hmapped := (hcleared.mapped htabled howned hcurrent htable hi habsent).1
    have hwithin : s.Within c := by
      refine ⟨fun q frame hframe => ?_, hstored⟩
      obtain rfl := howned.inPlace c hcurrent q frame hframe
      obtain ⟨-, -, hq, -⟩ := place_eq_some.mp hframe
      exact Or.inl hq
    apply (KeepsPages.of_eq (hcleared.within hwithin).1).trans
    intro key bytes hbytes
    obtain ⟨frame, hframe, hcontent⟩ := logicalMemory_eq_some.mp hbytes
    refine logicalMemory_eq_some.mpr ⟨frame, ?_, hcontent⟩
    refine (hmapped.kept key ?_).trans hframe
    rintro rfl
    rw [hcleared.absent _ habsent] at hframe
    cases hframe

omit hcurrent htabled in
theorem write_other {memory : Bytes}
    (hown : ∀ x, 0 ≤ x → x < usrSize → memory x ≠ s.memory x →
      s.place (c, pageOf x) = some (pageOf x)) {t : Nat} (ht : t ≠ c) (address : Int) :
    Paging.byteAt { s with memory := memory } t address = s.byteAt t address := by
  unfold byteAt logicalMemory logical
  change ((s.place (t, pageOf address)).map _).map _ = _
  cases hframe : s.place (t, pageOf address) with
  | none => rfl
  | some frame =>
      simp only [Option.map_some, Option.some.injEq]
      unfold content
      split
      · next hlow =>
          change memory _ = s.memory _
          by_contra hne
          have hoffset := (indexInPage address).isLt
          have hhigh : frameAddress frame + ((indexInPage address : Nat) : Int) < usrSize := by
            simp only [frameAddress, pageSize, memoryPages, usrSize] at hlow ⊢
            omega
          have hlow : 0 ≤ frameAddress frame + ((indexInPage address : Nat) : Int) := by
            simp only [frameAddress, pageSize]
            omega
          have hmine := hown _ hlow hhigh hne
          rw [pageOf_frame] at hmine
          exact ht (Prod.mk.inj (howned.framed.separate _ _ _ hframe hmine)).1
      · rfl

end Faults

def TagsOutside (s : Paging) : Prop :=
  ∀ first last, s.nextFreePage = some first →
    nextFree (Function.update s.masterTable first true) 0 totalPages = some last →
      ∀ t q frame, s.place (t, q) = some frame → ¬ s.TagFrame first last frame

theorem Started.keeps {s next : Paging} {stale : Int} {table first last c : Nat}
    {beside beside' : BitVec 32} (h : Started s next stale table first last)
    (hstart : s.startThread stale table beside beside' = some next)
    (hsteady : s.scheduler.Steady) (hcurrent : s.scheduler.current = some c)
    (htabled : s.Tabled)
    (hadmitted : ∀ t other, s.tableOf t = some other →
      table + memoryPages ≤ other ∨ other + memoryPages ≤ table)
    (htags : s.TagsOutside) : KeepsPages s next := by
  rintro ⟨t, q⟩ bytes hbytes
  obtain ⟨frame, hframe, hcontent⟩ := logicalMemory_eq_some.mp hbytes
  refine logicalMemory_eq_some.mpr ⟨frame, ?_, ?_⟩
  · rw [h.place hsteady hcurrent hadmitted, if_neg ?_]
    · exact hframe
    · rintro rfl
      obtain ⟨other, hother, -⟩ := place_eq_some.mp hframe
      exact Nat.lt_irrefl _ (htabled.lt hother)
  · obtain ⟨hmemory, hswapFile⟩ := h.bytes hstart
    have hspared := spared_of_not_tagFrame
      (htags first last h.firstFree h.lastFree t q frame hframe) s beside beside' rfl
    refine Eq.trans ?_ (hspared.trans hcontent)
    funext offset
    rw [content, content, hmemory, hswapFile]

/-- The last byte that each thread wrote to each address. -/
abbrev Written := Nat → Int → Option UInt8

def Written.put (written : Written) (t : Nat) (address count : Int) (bytes : Bytes) :
    Written :=
  Function.update written t fun x =>
    if address ≤ x ∧ x < address + count then some (bytes x) else written t x

def record (s : Paging) (written : Written) (c : Nat) : Event → Written
  | .create _ _ _ _ => Function.update written s.scheduler.threadIDS fun _ => none
  | .store address byte => written.put c address 1 fun _ => byte
  | .setValue p size allocation =>
      written.put c p 4 (Bytes.store (fun _ => 0) p (tagWord size allocation))
  | _ => written

def Holds (s : Paging) (written : Written) : Prop :=
  ∀ t, s.scheduler.Alive t → ∀ address byte, 0 ≤ address → address < usrSize →
    written t address = some byte → s.byteAt t address = some byte

theorem Holds.keeps {s next : Paging} {written : Written} (h : s.Holds written)
    (hkeeps : KeepsPages s next)
    (halive : ∀ t, next.scheduler.Alive t → s.scheduler.Alive t) : next.Holds written := by
  intro t ht address byte hlow hhigh hwritten
  exact hkeeps.byteAt (h t (halive t ht) address byte hlow hhigh hwritten)

theorem Holds.put {s : Paging} {written : Written} {c : Nat} {address count : Int}
    {bytes memory : Bytes} (h : s.Holds written) (howned : s.Owned)
    (hcurrent : s.scheduler.current = some c)
    (hplaced : ∀ x, address ≤ x → x < address + count → 0 ≤ x → x < usrSize →
      s.place (c, pageOf x) = some (pageOf x))
    (hin : ∀ x, address ≤ x → x < address + count → memory x = bytes x)
    (hout : ∀ x, ¬ (address ≤ x ∧ x < address + count) → memory x = s.memory x) :
    Holds { s with memory := memory } (written.put c address count bytes) := by
  intro t ht x byte hlow hhigh hwritten
  have halive : s.scheduler.Alive t := ht
  rcases Classical.em (t = c) with rfl | hne
  · rw [Written.put, Function.update_self] at hwritten
    rw [Owned.byteAt_iff (howned.store memory) hcurrent hlow hhigh]
    split at hwritten
    · next hrange =>
        obtain rfl := Option.some.inj hwritten
        exact ⟨hplaced x hrange.1 hrange.2 hlow hhigh, hin x hrange.1 hrange.2⟩
    · next hrange =>
        obtain ⟨hplace, hbyte⟩ := (howned.byteAt_iff hcurrent hlow hhigh).mp
          (h t halive x byte hlow hhigh hwritten)
        exact ⟨hplace, (hout x hrange).trans hbyte⟩
  · rw [Written.put, Function.update_of_ne hne] at hwritten
    rw [write_other howned ?_ hne]
    · exact h t halive x byte hlow hhigh hwritten
    · intro y hylow hyhigh hchanged
      have hrange := Classical.not_not.mp fun hrange => hchanged (hout y hrange)
      exact hplaced y hrange.1 hrange.2 hylow hyhigh

/-- What an event needs so that no frame is written but those that it is about: the swap
file is open where a page goes through it, `my_pthread_create` writes into no frame in
use, and user code writes to no foreign frame that was left accessible. -/
def Clean (s : Paging) : Event → Prop
  | .create stale table beside beside' => s.TagsOutside ∧
      ∀ mid, s.startThread stale table beside beside' = some mid → mid.YieldFiled
  | .yield => s.YieldFiled
  | .exit valuePtr => ∀ mid, s.leave valuePtr = some mid → mid.YieldFiled
  | .join _ => s.YieldFiled
  | .load _ => s.Stored
  | .store address _ => s.Stored ∧ s.OwnPage address
  | .setValue p _ _ => s.Stored ∧ s.OwnPage p ∧
      ∀ mid, s.touch p = some mid → mid.Stored ∧ mid.OwnPage (p + 3)
  | .mapPage _ => s.Stored
  | .reuse _ _ => True

inductive PrivateRun : Written → Paging → Prop
  | start (memory swapFile : Bytes) (cells : Nat → Nat) (table : Nat) (stale : Int) :
      PrivateRun (fun _ _ => none) (initializeMemory memory swapFile cells table stale)
  | step {written : Written} {s next : Paging} {current : Nat} (event : Event) :
      PrivateRun written s → s.scheduler.current = some current → s.Admitted event →
        s.Safe event → s.Clean event → s.step event = some next →
          PrivateRun (s.record written current event) next

theorem PrivateRun.safeRun {written : Written} {s : Paging} (h : PrivateRun written s) :
    SafeRun s := by
  induction h with
  | start memory swapFile cells table stale => exact .start memory swapFile cells table stale
  | step event _ hcurrent hadmitted hsafe _ hnext ih =>
      exact .step event ih hcurrent hadmitted hsafe hnext

theorem yield_holds {s next : Paging} {written : Written} (hpending : s.scheduler.Pending)
    (htabled : s.Tabled) (howned : s.Owned) (hsafe : s.YieldSafe) (hfiled : s.YieldFiled)
    (h : s.myPthreadYield = some next) (hholds : s.Holds written) : next.Holds written := by
  obtain ⟨other, hother, hyielded⟩ := yield_spec hpending htabled howned hsafe
  obtain rfl := Option.some.inj (hother.symm.trans h)
  apply hholds.keeps (.of_eq (hyielded.logicalMemory hfiled))
  intro t ht
  obtain ⟨table, htable, -⟩ := hyielded.tabled.table ht
  exact alive_of_tableOf (hyielded.table ▸ htable)

section Steps

variable {s next : Paging} {written : Written} {c : Nat} (htabled : s.Tabled)
  (hsteady : s.scheduler.Steady) (howned : s.Owned)
  (hcurrent : s.scheduler.current = some c) (hholds : s.Holds written)

include htabled hsteady howned hcurrent hholds

theorem touch_holds {address : Int} (hsafe : s.AccessSafe address) (hstored : s.Stored)
    (h : s.touch address = some next) : next.Holds written := by
  obtain ⟨hkeeps, -⟩ := touch_keeps hcurrent htabled howned (hsteady.current_alive hcurrent)
    hsafe hstored h
  apply hholds.keeps hkeeps
  intro t ht
  rwa [(touch_rewrites h).scheduler] at ht

theorem create_holds {stale : Int} {table : Nat} {beside beside' : BitVec 32}
    (hadmitted : s.Admitted (.create stale table beside beside'))
    (hsafe : s.Safe (.create stale table beside beside'))
    (hclean : s.Clean (.create stale table beside beside'))
    (h : s.myPthreadCreate stale table beside beside' = some next) :
    next.Holds (Function.update written s.scheduler.threadIDS fun _ => none) := by
  obtain ⟨mid, hmid, hyield⟩ := Option.bind_eq_some_iff.mp h
  obtain ⟨first, last, hstarted⟩ := startThread_spec hmid
  obtain ⟨hpending, -, -, hthreads⟩ := hstarted.scheduler hsteady hcurrent
  have hkeeps := hstarted.keeps hmid hsteady hcurrent htabled hadmitted hclean.1
  apply yield_holds hpending (hstarted.tabled hsteady hcurrent hadmitted htabled)
    (hstarted.owned hsteady hcurrent htabled howned hadmitted) (hsafe mid hmid)
    (hclean.2 mid hmid) hyield
  intro t ht address byte hlow hhigh hwritten
  rcases Classical.em (t = s.scheduler.threadIDS) with rfl | hne
  · rw [Function.update_self] at hwritten
    cases hwritten
  · rw [Function.update_of_ne hne] at hwritten
    apply hkeeps.byteAt
    apply hholds t ?_ address byte hlow hhigh hwritten
    rwa [Scheduler.Alive, hthreads, Function.update_of_ne hne] at ht

theorem exit_holds {valuePtr : Int} (hsafe : s.Safe (.exit valuePtr))
    (hclean : s.Clean (.exit valuePtr)) (h : s.myPthreadExit valuePtr = some next) :
    next.Holds written := by
  obtain ⟨mid, hmid, hyield⟩ := Option.bind_eq_some_iff.mp h
  obtain ⟨hsame, hpending, hnone, -⟩ := leave_spec hsteady hcurrent hmid
  exact yield_holds hpending (hsame.tabled htabled) (hsame.owned howned hnone)
    (hsafe mid hmid) (hclean mid hmid) hyield
    (hholds.keeps (.of_eq (logicalMemory_congr hsame.place hsame.content))
      fun t => (hsame.alive t).mp)

omit hcurrent in
theorem join_holds {thread : Nat} (hsafe : s.Safe (.join thread))
    (hclean : s.Clean (.join thread)) (h : s.myPthreadJoin thread = some next) :
    next.Holds written := by
  obtain ⟨struct, hstruct, hrest⟩ := Option.bind_eq_some_iff.mp h
  change s.JoinSafe thread at hsafe
  rw [JoinSafe, hstruct, Option.map_some] at hsafe
  split at hrest
  · next hactive =>
      rw [if_neg fun heq => hactive (Option.some.inj heq)] at hsafe
      exact yield_holds hsteady.pending htabled howned hsafe hclean hrest hholds
  · have hforgotten := releaseThread_forgotten hrest
    intro t ht address byte hlow hhigh hwritten
    have hne : t ≠ thread := by
      rintro rfl
      apply ht
      rw [hforgotten.scheduler]
      exact Function.update_self _ _ _
    have halive : s.scheduler.Alive t := by
      intro hnone
      apply ht
      rw [hforgotten.scheduler]
      exact (Function.update_of_ne hne _ _).trans hnone
    obtain ⟨frame, hframe, hbyte⟩ :=
      byteAt_eq_some.mp (hholds t halive address byte hlow hhigh hwritten)
    refine byteAt_eq_some.mpr ⟨frame, ?_, ?_⟩
    · rw [hforgotten.place, if_neg hne]
      exact hframe
    · rw [hforgotten.content]
      exact hbyte

theorem store_holds {address : Int} {byte : UInt8} (hsafe : s.AccessSafe address)
    (hclean : s.Clean (.store address byte)) (h : s.storeByte address byte = some next) :
    next.Holds (written.put c address 1 fun _ => byte) := by
  obtain ⟨mid, hmid, heq⟩ := Option.bind_eq_some_iff.mp h
  obtain rfl := Option.some.inj heq
  have hrewrites := touch_rewrites hmid
  obtain ⟨-, hplaced⟩ := touch_keeps hcurrent htabled howned
    (hsteady.current_alive hcurrent) hsafe hclean.1 hmid
  apply Holds.put (touch_holds htabled hsteady howned hcurrent hholds hsafe hclean.1 hmid)
    (touch_owned hcurrent hsteady htabled howned hsafe hmid)
    (hrewrites.scheduler ▸ hcurrent)
  · intro x hlow hhigh hin hin'
    obtain rfl : x = address := by omega
    exact hplaced hclean.2 hin hin'
  · intro x hlow hhigh
    obtain rfl : x = address := by omega
    exact Function.update_self _ _ _
  · intro x hout
    apply Function.update_of_ne
    omega

theorem setValue_holds {p size allocation : Int} (hsafe : s.Safe (.setValue p size allocation))
    (hclean : s.Clean (.setValue p size allocation))
    (h : s.setValue p size allocation = some next) :
    next.Holds (written.put c p 4 (Bytes.store (fun _ => 0) p (tagWord size allocation))) := by
  obtain ⟨last, hlast, heq⟩ := Option.bind_eq_some_iff.mp h
  obtain rfl := Option.some.inj heq
  obtain ⟨mid, hmid, hsecond⟩ := Option.bind_eq_some_iff.mp hlast
  obtain ⟨hstored, hown, hafter⟩ := hclean
  obtain ⟨hstored', hown'⟩ := hafter mid hmid
  have hrewrites := touch_rewrites hmid
  have hcurrent' : mid.scheduler.current = some c := hrewrites.scheduler ▸ hcurrent
  have hsteady' : mid.scheduler.Steady := hrewrites.scheduler ▸ hsteady
  have htabled' := htabled.rewrites hrewrites
  have howned' := touch_owned hcurrent hsteady htabled howned hsafe.1 hmid
  have hlastOwned := touch_owned hcurrent' hsteady' htabled' howned' (hsafe.2 mid hmid) hsecond
  have hlastCurrent : last.scheduler.current = some c :=
    (touch_rewrites hsecond).scheduler ▸ hcurrent'
  obtain ⟨-, hplaced⟩ := touch_keeps hcurrent htabled howned
    (hsteady.current_alive hcurrent) hsafe.1 hstored hmid
  obtain ⟨hkeeps, hplaced'⟩ := touch_keeps hcurrent' htabled' howned'
    (hsteady'.current_alive hcurrent') (hsafe.2 mid hmid) hstored' hsecond
  have hpositive : 0 ≤ p := (touch_cases hmid).1
  apply Holds.put (touch_holds htabled' hsteady' howned' hcurrent'
    (touch_holds htabled hsteady howned hcurrent hholds hsafe.1 hstored hmid)
    (hsafe.2 mid hmid) hstored' hsecond) hlastOwned hlastCurrent
  · intro x hlow hhigh hin hin'
    have hpages : pageOf x = pageOf p ∨ pageOf x = pageOf (p + 3) ∧ p + 3 < usrSize := by
      simp only [pageOf, pageSize, usrSize] at hin' ⊢
      omega
    rcases hpages with hpage | ⟨hpage, hend⟩
    · -- the second touch leaves the page of the first one in place
      rw [hpage]
      obtain ⟨frame, hframe, -⟩ := logicalMemory_eq_some.mp (hkeeps _ _
        (logicalMemory_eq_some.mpr ⟨_, hplaced hown hpositive (by omega), rfl⟩))
      obtain rfl := hlastOwned.inPlace c hlastCurrent _ frame hframe
      exact hframe
    · rw [hpage]
      exact hplaced' hown' (by omega) hend
  · intro x hlow hhigh
    simp only [Bytes.store]
    grind
  · intro x hout
    exact Bytes.store_outside _ _ (by omega)

theorem step_holds {event : Event} (hadmitted : s.Admitted event) (hsafe : s.Safe event)
    (hclean : s.Clean event) (h : s.step event = some next) :
    next.Holds (s.record written c event) := by
  cases event with
  | create stale table beside beside' =>
      exact create_holds htabled hsteady howned hcurrent hholds hadmitted hsafe hclean h
  | yield => exact yield_holds hsteady.pending htabled howned hsafe hclean h hholds
  | exit valuePtr =>
      exact exit_holds htabled hsteady howned hcurrent hholds hsafe hclean h
  | join thread =>
      exact join_holds htabled hsteady howned hholds hsafe hclean h
  | load address =>
      exact touch_holds htabled hsteady howned hcurrent hholds hsafe hclean h
  | store address byte =>
      exact store_holds htabled hsteady howned hcurrent hholds hsafe hclean h
  | setValue p size allocation =>
      exact setValue_holds htabled hsteady howned hcurrent hholds hsafe hclean h
  | mapPage i =>
      obtain ⟨d, table, hd, htable, hmap⟩ := mapEvent_cases h
      obtain rfl := Option.some.inj (hcurrent.symm.trans hd)
      have htable' := (tableOf_eq (hsteady.current_alive hd)).trans htable
      have hrewrites := mapPage_rewrites hmap
      apply hholds.keeps (mapPage_keeps hd htabled howned htable' hsafe hclean hmap)
      intro t ht
      rwa [hrewrites.scheduler] at ht
  | reuse cell value =>
      obtain rfl := Option.some.inj h
      exact hholds.keeps (.of_eq (logicalMemory_congr (place_reuse value hadmitted) rfl))
        fun t ht => ht

end Steps

theorem PrivateRun.holds {written : Written} {s : Paging} (h : PrivateRun written s) :
    s.Holds written := by
  induction h with
  | start memory swapFile cells table stale =>
      intro t _ address byte _ _ hwritten
      cases hwritten
  | step event hrun hcurrent hadmitted hsafe hclean hnext ih =>
      obtain ⟨htabled, hsteady⟩ := hrun.safeRun.reachable.tabled
      exact step_holds htabled hsteady hrun.safeRun.owned hcurrent ih hadmitted hsafe hclean
        hnext

/-- In such a run every unjoined thread keeps the last byte that it wrote to each address
of the user region, whatever the other threads do and wherever its pages go.  When it runs,
the byte is at its address.  It is read there if the frame is accessible, which a switch
does not see to. -/
theorem private_memories {written : Written} {s : Paging} (h : PrivateRun written s) {t : Nat}
    (halive : s.scheduler.Alive t) {address : Int} {byte : UInt8} (hlow : 0 ≤ address)
    (hhigh : address < usrSize) (hwritten : written t address = some byte) :
    s.byteAt t address = some byte ∧
      (s.scheduler.current = some t →
        s.place (t, pageOf address) = some (pageOf address) ∧ s.memory address = byte ∧
          (s.accessible (pageOf address) = true → s.touch address = some s)) := by
  have hbyte := h.holds t halive address byte hlow hhigh hwritten
  refine ⟨hbyte, fun hcurrent => ?_⟩
  obtain ⟨hplace, hmemory⟩ := (h.safeRun.owned.byteAt_iff hcurrent hlow hhigh).mp hbyte
  refine ⟨hplace, hmemory, fun hopen => ?_⟩
  rw [touch_page hlow (Int.lt_trans hhigh usrSize_lt), touchPage_open hopen]

def marked : Option Paging :=
  mainAlone.step (.store 8 7)

def handed : Option Paging :=
  marked.bind fun s => s.step (.create 0 2000 0 0)

theorem marked_run : ∃ written s, marked = some s ∧ PrivateRun written s ∧
    written 0 8 = some 7 ∧ Rewrites mainAlone s := by
  obtain ⟨s, hs⟩ := Option.isSome_iff_exists.mp (by decide +kernel : marked.isSome = true)
  have hsafe : mainAlone.Safe (.store 8 7) := fun _ _ => Or.inl rfl
  have hclean : mainAlone.Clean (.store 8 7) := by
    refine ⟨fun _ _ => Or.inr rfl, fun _ _ c hc _ => ?_⟩
    obtain rfl := Option.some.inj hc
    decide
  have hstep : mainAlone.step (.store 8 7) = some s := hs
  exact ⟨_, s, hs, .step (.store 8 7) (.start _ _ _ _ _) rfl trivial hsafe hclean hstep, rfl,
    access_rewrites hstep (Or.inr (Or.inl ⟨8, 7, rfl⟩))⟩

theorem handed_run : ∃ written s, handed = some s ∧ PrivateRun written s ∧
    written 0 8 = some 7 := by
  obtain ⟨written, s, hs, hrun, hwritten, hrewrites⟩ := marked_run
  obtain ⟨next, hnext⟩ := Option.isSome_iff_exists.mp
    (by decide +kernel : handed.isSome = true)
  have hstep : s.step (.create 0 2000 0 0) = some next := by
    rw [← hnext, handed, hs, Option.bind_some]
  have hfacts : marked.map (fun s => (s.place (0, 0), s.place (0, 1),
      (landing s.masterTable 4).length, s.fileOpen)) = some (some 0, none, 4, true) := by
    decide +kernel
  rw [hs] at hfacts
  obtain ⟨hfirst, hsecond, henough, hopen⟩ : s.place (0, 0) = some 0 ∧
      s.place (0, 1) = none ∧ (landing s.masterTable 4).length = 4 ∧ s.fileOpen = true := by
    simpa using Option.some.inj hfacts
  have hfree : marked.map (fun s => (s.nextFreePage,
      nextFree (Function.update s.masterTable 1 true) 0 totalPages)) =
        some (some 1, some 2) := by
    decide +kernel
  rw [hs] at hfree
  obtain ⟨hfree, hfree'⟩ := Prod.mk.inj (Option.some.inj hfree)
  obtain ⟨htabled, hsteady⟩ := hrun.safeRun.reachable.tabled
  have howned := hrun.safeRun.owned
  have hscheduler : s.scheduler = Scheduler.initializeScheduler 0 := hrewrites.scheduler
  have hcurrent : s.scheduler.current = some 0 := by
    rw [hscheduler]
    rfl
  have hadmitted : s.Admitted (.create 0 2000 0 0) := by
    intro t other hother
    rw [hrewrites.tableOf] at hother
    exact mainAlone_admitted t other hother
  have hends : s.EndsAt 0 1 := .one (hfirst ▸ Option.some_ne_none 0) hsecond
  have hclean : s.Clean (.create 0 2000 0 0) := by
    refine ⟨?_, fun mid hmid => ?_⟩
    · intro first last hone htwo t q frame hframe htag
      obtain rfl := Option.some.inj (hfree.symm.trans hone)
      obtain rfl := Option.some.inj (hfree'.symm.trans htwo)
      -- both frames are free frames in memory
      rcases htag with ⟨-, rfl⟩ | ⟨-, rfl⟩ | ⟨-, ⟨hslot, -⟩ | ⟨hslot, -⟩⟩
      · exact (howned.framed.vacant (nextFreePage_spec hfree).2.1).1 _ hframe
      · have hlast := (nextFree_spec totalPages hfree').2.2.1
        rw [Function.update_of_ne (by decide)] at hlast
        exact (howned.framed.vacant hlast).1 _ hframe
      · exact absurd hslot (by decide)
      · exact absurd hslot (by decide)
    · obtain ⟨first, last, hstarted⟩ := startThread_spec hmid
      exact yieldFiled_of_open (hstarted.fileOpen.trans hopen)
  refine ⟨_, next, hnext, .step _ hrun hcurrent hadmitted
    (firstCreate_safe hscheduler htabled howned hends Nat.zero_lt_one henough hadmitted)
    hclean hstep, ?_⟩
  rw [record, hscheduler]
  exact hwritten

theorem private_memories_handed : ∃ s next, handed = some s ∧
    s.step (.store 8 9) = some next ∧ next.byteAt 0 8 = some 7 ∧ next.byteAt 1 8 = some 9 := by
  obtain ⟨written, s, hs, hrun, hwritten⟩ := handed_run
  obtain ⟨next, hnext⟩ := Option.isSome_iff_exists.mp
    (by decide +kernel : (handed.bind fun s => s.step (.store 8 9)).isSome = true)
  rw [hs, Option.bind_some] at hnext
  have hfacts : handed.map (fun s => (s.scheduler.current, s.fileOpen, s.accessible 0,
      s.place (1, 0))) = some (some 1, true, true, some 0) := by
    decide +kernel
  rw [hs] at hfacts
  obtain ⟨hcurrent, hopen, haccess, hplace⟩ : s.scheduler.current = some 1 ∧
      s.fileOpen = true ∧ s.accessible 0 = true ∧ s.place (1, 0) = some 0 := by
    simpa using Option.some.inj hfacts
  have halive : (handed.bind fun s => s.step (.store 8 9)).map (fun s =>
      ((s.scheduler.threads 0).isSome, (s.scheduler.threads 1).isSome)) =
        some (true, true) := by
    decide +kernel
  rw [hs, Option.bind_some, hnext] at halive
  obtain ⟨hzero, hone⟩ := Prod.mk.inj (Option.some.inj halive)
  have hstored : PrivateRun (s.record written 1 (.store 8 9)) next := by
    refine .step (.store 8 9) hrun hcurrent trivial (fun _ _ => Or.inl haccess) ?_ hnext
    refine ⟨fun _ _ => Or.inr hopen, fun _ _ c hc _ => ?_⟩
    obtain rfl := Option.some.inj (hcurrent.symm.trans hc)
    exact hplace
  exact ⟨s, next, hs, hnext,
    (private_memories hstored (Option.isSome_iff_ne_none.mp hzero) (by decide) (by decide)
      hwritten).1,
    (private_memories hstored (Option.isSome_iff_ne_none.mp hone) (by decide) (by decide)
      rfl).1⟩

end RutgersOS.Assignment2.Paging
