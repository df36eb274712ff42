import Mathlib.Logic.Function.Basic

namespace RutgersOS.Memory

/-! Keys that live in frames.  A table of used frames is right when it marks the
frames that hold a key, up to some whose release is delayed. -/

variable {Key : Type u} {Frame : Type v} {Content : Type w}

def Vacant (place : Key → Option Frame) (frame : Frame) : Prop :=
  ∀ key, place key ≠ some frame

def Separate (place : Key → Option Frame) : Prop :=
  ∀ first second frame, place first = some frame → place second = some frame →
    first = second

/-- What a key stands for, wherever it lives. -/
def logical (place : Key → Option Frame) (content : Frame → Content)
    (key : Key) : Option Content :=
  (place key).map content

structure Framed (place : Key → Option Frame) (used : Frame → Bool)
    (delayed : Frame → Prop) : Prop where
  separate : Separate place
  marks : ∀ frame, used frame = true ↔ ¬ Vacant place frame ∨ delayed frame

theorem not_vacant {place : Key → Option Frame} {key : Key} {frame : Frame}
    (h : place key = some frame) : ¬ Vacant place frame :=
  fun hvacant => hvacant key h

theorem exists_of_not_vacant {place : Key → Option Frame} {frame : Frame}
    (h : ¬ Vacant place frame) : ∃ key, place key = some frame := by
  unfold Vacant at h
  simpa using h

namespace Framed

variable {place : Key → Option Frame} {used : Frame → Bool} {delayed : Frame → Prop}

theorem vacant (h : Framed place used delayed) {frame : Frame}
    (hfree : used frame = false) : Vacant place frame ∧ ¬ delayed frame := by
  have hmark := h.marks frame
  rw [hfree] at hmark
  have hnot := fun hor => Bool.false_ne_true (hmark.mpr hor)
  exact ⟨Classical.not_not.mp fun hheld => hnot (Or.inl hheld),
    fun hdelayed => hnot (Or.inr hdelayed)⟩

theorem used_of_place (h : Framed place used delayed) {key : Key} {frame : Frame}
    (hkey : place key = some frame) : used frame = true :=
  (h.marks frame).mpr (Or.inl (not_vacant hkey))

theorem release (h : Framed place used delayed)
    (hvacant : ∀ frame, delayed frame → Vacant place frame) {used' : Frame → Bool}
    (hused : ∀ frame, used' frame = true ↔ used frame = true ∧ ¬ delayed frame) :
    Framed place used' (fun _ => False) where
  separate := h.separate
  marks frame := by
    rw [hused frame, h.marks frame, or_false]
    constructor
    · rintro ⟨hheld | hdelayed, hnot⟩
      · exact hheld
      · exact absurd hdelayed hnot
    · intro hheld
      exact ⟨Or.inl hheld, fun hdelayed => hheld (hvacant frame hdelayed)⟩

theorem congr {delayed' : Frame → Prop} (h : Framed place used delayed)
    (hsame : ∀ frame, delayed' frame ↔ delayed frame) :
    Framed place used delayed' where
  separate := h.separate
  marks frame := by rw [hsame frame, h.marks frame]

end Framed

structure Moves (place place' : Key → Option Frame) (key : Key)
    (source target : Frame) : Prop where
  source : place key = some source
  vacant : Vacant place target
  moved : place' key = some target
  kept : ∀ other, other ≠ key → place' other = place other

structure Appears (place place' : Key → Option Frame) (key : Key)
    (target : Frame) : Prop where
  absent : place key = none
  vacant : Vacant place target
  placed : place' key = some target
  kept : ∀ other, other ≠ key → place' other = place other

theorem separate_of_kept {place place' : Key → Option Frame} {key : Key}
    (h : Separate place) (hkept : ∀ other, other ≠ key → place' other = place other)
    (hvacant : ∀ frame, place' key = some frame →
      ∀ other, other ≠ key → place other ≠ some frame) : Separate place' := by
  intro first second frame hfirst hsecond
  rcases Classical.em (first = key) with rfl | hone
  · rcases Classical.em (second = first) with rfl | htwo
    · rfl
    · rw [hkept second htwo] at hsecond
      exact absurd hsecond (hvacant frame hfirst second htwo)
  · rw [hkept first hone] at hfirst
    rcases Classical.em (second = key) with rfl | htwo
    · exact absurd hfirst (hvacant frame hsecond first hone)
    · rw [hkept second htwo] at hsecond
      exact h first second frame hfirst hsecond

namespace Moves

variable {place place' : Key → Option Frame} {key : Key} {source target : Frame}

theorem ne (h : Moves place place' key source target) : target ≠ source := by
  rintro rfl
  exact h.vacant key h.source

theorem separate (h : Moves place place' key source target)
    (hseparate : Separate place) : Separate place' := by
  apply separate_of_kept hseparate h.kept
  intro frame hframe other _
  rw [h.moved] at hframe
  rw [← Option.some.inj hframe]
  exact h.vacant other

theorem vacant_iff (h : Moves place place' key source target)
    (hseparate : Separate place) (frame : Frame) :
    Vacant place' frame ↔
      frame = source ∨ Vacant place frame ∧ frame ≠ target := by
  constructor
  · intro hvacant
    rcases Classical.em (frame = source) with heq | hne
    · exact Or.inl heq
    · refine Or.inr ⟨?_, ?_⟩
      · intro other hother
        rcases Classical.em (other = key) with rfl | hdiffers
        · rw [h.source] at hother
          exact hne (Option.some.inj hother).symm
        · exact hvacant other ((h.kept other hdiffers).trans hother)
      · rintro rfl
        exact hvacant key h.moved
  · intro hcases other hother
    rcases Classical.em (other = key) with rfl | hdiffers
    · rw [h.moved] at hother
      obtain rfl := Option.some.inj hother
      rcases hcases with heq | ⟨-, hne⟩
      · exact h.ne heq
      · exact hne rfl
    · rw [h.kept other hdiffers] at hother
      rcases hcases with rfl | ⟨hvacant, -⟩
      · exact hdiffers (hseparate other key frame hother h.source)
      · exact hvacant other hother

/-- A move that copies the content changes what no key stands for. -/
theorem logical (h : Moves place place' key source target)
    (hseparate : Separate place) {content content' : Frame → Content}
    (hcopied : content' target = content source)
    (hkept : ∀ frame, frame ≠ source → frame ≠ target →
      content' frame = content frame) :
    logical place' content' = logical place content := by
  funext other
  unfold Memory.logical
  rcases Classical.em (other = key) with rfl | hdiffers
  · rw [h.moved, h.source, Option.map_some, Option.map_some, hcopied]
  · rw [h.kept other hdiffers]
    cases hother : place other with
    | none => rfl
    | some frame =>
        rw [Option.map_some, Option.map_some, hkept frame]
        · rintro rfl
          exact hdiffers (hseparate other key frame hother h.source)
        · rintro rfl
          exact h.vacant other hother

variable [DecidableEq Frame] {used : Frame → Bool} {delayed : Frame → Prop}

theorem framed_delay (h : Moves place place' key source target)
    (hframed : Framed place used delayed) :
    Framed place' (Function.update used target true)
      (fun frame => delayed frame ∨ frame = source) where
  separate := h.separate hframed.separate
  marks frame := by
    have hmark := hframed.marks frame
    have hvacant := h.vacant_iff hframed.separate frame
    have hsource : ¬ Vacant place source := not_vacant h.source
    rcases Classical.em (frame = target) with rfl | hne
    · rw [Function.update_self]
      refine iff_of_true rfl (Or.inl ?_)
      rw [hvacant]
      rintro (heq | ⟨-, hself⟩)
      · exact h.ne heq
      · exact hself rfl
    · rw [Function.update_of_ne hne, hmark, hvacant]
      rcases Classical.em (frame = source) with rfl | hdiffers
      · exact iff_of_true (Or.inl hsource) (Or.inr (Or.inr rfl))
      · simp [hne, hdiffers]

theorem framed_release (h : Moves place place' key source target)
    (hframed : Framed place used delayed) (hsource : ¬ delayed source) :
    Framed place'
      (Function.update (Function.update used source false) target true)
      (fun frame => delayed frame ∧ frame ≠ target) where
  separate := h.separate hframed.separate
  marks frame := by
    have hmark := hframed.marks frame
    have hvacant := h.vacant_iff hframed.separate frame
    rcases Classical.em (frame = target) with rfl | hne
    · rw [Function.update_self]
      refine iff_of_true rfl (Or.inl ?_)
      rw [hvacant]
      rintro (heq | ⟨-, hself⟩)
      · exact h.ne heq
      · exact hself rfl
    · rw [Function.update_of_ne hne, hvacant]
      rcases Classical.em (frame = source) with rfl | hdiffers
      · rw [Function.update_self]
        simp [hsource]
      · rw [Function.update_of_ne hdiffers, hmark]
        simp [hne, hdiffers]

end Moves

namespace Appears

variable {place place' : Key → Option Frame} {key : Key} {target : Frame}

theorem separate (h : Appears place place' key target)
    (hseparate : Separate place) : Separate place' := by
  apply separate_of_kept hseparate h.kept
  intro frame hframe other _
  rw [h.placed] at hframe
  rw [← Option.some.inj hframe]
  exact h.vacant other

theorem vacant_iff (h : Appears place place' key target) (frame : Frame) :
    Vacant place' frame ↔ Vacant place frame ∧ frame ≠ target := by
  constructor
  · intro hvacant
    refine ⟨?_, ?_⟩
    · intro other hother
      rcases Classical.em (other = key) with rfl | hdiffers
      · rw [h.absent] at hother
        cases hother
      · exact hvacant other ((h.kept other hdiffers).trans hother)
    · rintro rfl
      exact hvacant key h.placed
  · rintro ⟨hvacant, hne⟩ other hother
    rcases Classical.em (other = key) with rfl | hdiffers
    · rw [h.placed] at hother
      exact hne (Option.some.inj hother).symm
    · exact hvacant other ((h.kept other hdiffers).symm.trans hother)

theorem framed [DecidableEq Frame] {used : Frame → Bool} {delayed : Frame → Prop}
    (h : Appears place place' key target) (hframed : Framed place used delayed) :
    Framed place' (Function.update used target true)
      (fun frame => delayed frame ∧ frame ≠ target) where
  separate := h.separate hframed.separate
  marks frame := by
    rw [h.vacant_iff frame]
    rcases Classical.em (frame = target) with rfl | hne
    · rw [Function.update_self]
      simp
    · rw [Function.update_of_ne hne, hframed.marks frame]
      simp [hne]

end Appears

end RutgersOS.Memory
