import Mathlib.Data.List.Basic

namespace RutgersOS.Sfs

/-! `parsePath` of `test/test.c`.  A C string is the list of its bytes without
the final NUL. -/

def slash : UInt8 := 47

def getNumDirs (path : List UInt8) : Nat :=
  path.count slash

/-- The array `indices`: where the slashes are, and the length. -/
def slashIndices (i : Nat) : List UInt8 → List Nat
  | [] => [i]
  | c :: rest =>
      if c = slash then i :: slashIndices (i + 1) rest
      else slashIndices (i + 1) rest

/-- `strncpy` of the bytes after each slash up to the next index. -/
def pathStrings (path : List UInt8) : List Nat → List (List UInt8)
  | first :: second :: rest =>
      let size := second - first
      (path.drop (first + 1)).take (size - 1) ::
        pathStrings path (second :: rest)
  | _ => []

def parsePath (path : List UInt8) : List (List UInt8) :=
  pathStrings path (slashIndices 0 path)

def Absolute (path : List UInt8) : Prop :=
  path.head? = some slash ∧ 0 ∉ path

theorem length_slashIndices (path : List UInt8) :
    ∀ i, (slashIndices i path).length = getNumDirs path + 1 := by
  induction path with
  | nil => exact fun _ => rfl
  | cons c rest ih =>
      intro i
      unfold slashIndices getNumDirs
      split
      · next heq =>
          rw [List.length_cons, ih, heq, List.count_cons_self]
          rfl
      · next hne => rw [ih, List.count_cons_of_ne hne, getNumDirs]

theorem length_pathStrings (path : List UInt8) (indices : List Nat) :
    (pathStrings path indices).length = indices.length - 1 := by
  induction indices with
  | nil => rfl
  | cons first rest ih =>
      cases rest with
      | nil => rfl
      | cons second rest =>
          rw [pathStrings, List.length_cons, ih]
          rfl

theorem length_parsePath (path : List UInt8) :
    (parsePath path).length = getNumDirs path := by
  rw [parsePath, length_pathStrings, length_slashIndices]
  rfl

theorem mem_pathStrings {path : List UInt8} {indices : List Nat}
    {name : List UInt8} (h : name ∈ pathStrings path indices) :
    ∀ c ∈ name, c ∈ path := by
  induction indices with
  | nil => cases h
  | cons first rest ih =>
      cases rest with
      | nil => cases h
      | cons second rest =>
          rcases List.mem_cons.mp h with rfl | hrest
          · exact fun c hc => List.mem_of_mem_drop (List.mem_of_mem_take hc)
          · exact ih hrest

theorem head_slashIndices (path : List UInt8) :
    ∀ i, (slashIndices i path).head? =
      some (i + (path.takeWhile (· ≠ slash)).length) := by
  induction path with
  | nil => exact fun _ => rfl
  | cons c rest ih =>
      intro i
      unfold slashIndices
      split
      · next heq => simp [heq]
      · next hne =>
          rw [ih, List.takeWhile_cons_of_pos (by simpa using hne),
            List.length_cons]
          congr 1
          omega

theorem join_pathStrings (suffix : List UInt8) : ∀ before : List UInt8,
    (pathStrings (before ++ suffix) (slashIndices before.length suffix)).flatMap
        (slash :: ·) = suffix.dropWhile (· ≠ slash) := by
  induction suffix with
  | nil => exact fun _ => rfl
  | cons c rest ih =>
      intro before
      have hrest := ih (before ++ [c])
      simp only [List.append_assoc, List.singleton_append, List.length_append,
        List.length_singleton] at hrest
      rw [slashIndices]
      split
      · next heq =>
          have hhead := head_slashIndices rest (before.length + 1)
          obtain ⟨others, hothers⟩ := List.head?_eq_some_iff.mp hhead
          rw [hothers] at hrest ⊢
          have hdrop : (before ++ c :: rest).drop (before.length + 1) = rest := by
            rw [← List.drop_drop, List.drop_left]
            rfl
          rw [pathStrings, List.flatMap_cons, hrest, hdrop,
            List.dropWhile_cons_of_neg (by simpa using heq),
            show before.length + 1 + (rest.takeWhile (· ≠ slash)).length -
              before.length - 1 = (rest.takeWhile (· ≠ slash)).length by omega,
            List.cons_append]
          have htake : rest.take (rest.takeWhile (· ≠ slash)).length =
              rest.takeWhile (· ≠ slash) :=
            List.prefix_iff_eq_take.mp (List.takeWhile_prefix _) |>.symm
          rw [htake, List.takeWhile_append_dropWhile, heq]
      · next hne =>
          rw [hrest, List.dropWhile_cons_of_pos (by simpa using hne)]

theorem join_parsePath {path : List UInt8} (h : Absolute path) :
    (parsePath path).flatMap (slash :: ·) = path := by
  obtain ⟨rest, rfl⟩ := List.head?_eq_some_iff.mp h.1
  have hjoin := join_pathStrings (slash :: rest) []
  rw [List.dropWhile_cons_of_neg (by simp)] at hjoin
  exact hjoin

/-- Different absolute paths have different components. -/
theorem parsePath_inj {first second : List UInt8} (hfirst : Absolute first)
    (hsecond : Absolute second) (h : parsePath first = parsePath second) :
    first = second := by
  rw [← join_parsePath hfirst, h, join_parsePath hsecond]

theorem parsePath_ne_nil {path : List UInt8} (h : Absolute path) :
    parsePath path ≠ [] := by
  intro hnil
  have hjoin := join_parsePath h
  rw [hnil] at hjoin
  have hhead := h.1
  rw [← hjoin] at hhead
  cases hhead

theorem nul_not_mem_parsePath {path : List UInt8} (h : Absolute path)
    {name : List UInt8} (hname : name ∈ parsePath path) : 0 ∉ name :=
  fun hzero => h.2 (mem_pathStrings hname 0 hzero)

end RutgersOS.Sfs
