import Mathlib.Data.List.TakeWhile

namespace RutgersOS.Memory

variable {α : Type} [Zero α]

def calloc (size : Nat) : List α :=
  List.replicate size 0

def strncpy (dest src : List α) (n : Nat) : List α :=
  src.take n ++ List.replicate (n - src.length) 0 ++ dest.drop n

theorem length_strncpy {dest : List α} (src : List α) {n : Nat} (hn : n ≤ dest.length) :
    (strncpy dest src n).length = dest.length := by
  simp only [strncpy, List.length_append, List.length_take, List.length_replicate,
    List.length_drop]
  omega

/-- A copy of less than its size leaves the last cell of a cleared array. -/
theorem zero_mem_strncpy_calloc (src : List α) {size n : Nat} (hn : n < size) :
    0 ∈ strncpy (calloc size) src n := by
  apply List.mem_append_right
  rw [calloc, List.drop_replicate]
  exact List.mem_replicate.mpr ⟨by omega, rfl⟩

variable [DecidableEq α]

def cString (array : List α) : List α :=
  array.takeWhile (· ≠ 0)

theorem cString_append_replicate {string : List α} (h : 0 ∉ string) (n : Nat) :
    cString (string ++ List.replicate n 0) = string := by
  rw [cString, List.takeWhile_append_of_pos]
  · cases n with
    | zero => exact List.append_nil string
    | succ n => simp [List.replicate_succ]
  · intro c hc
    rw [decide_eq_true_iff]
    rintro rfl
    exact h hc

theorem cString_strncpy_calloc {src : List α} (h : 0 ∉ src) (size n : Nat) :
    cString (strncpy (calloc size) src n) = src.take n := by
  rw [strncpy, calloc, List.drop_replicate, List.append_assoc,
    List.replicate_append_replicate]
  exact cString_append_replicate (fun hzero => h (List.mem_of_mem_take hzero)) _

end RutgersOS.Memory
