import Mathlib
import RutgersOS.Memory.CStrings
import RutgersOS.Sfs.Path

namespace RutgersOS.Sfs

open RutgersOS.Memory

/-- `if (path[i] == slash) { indices[j] = i; j++; }` from position `i` on. -/
def recordSlashes (indices : List Nat) (j i : Nat) : List UInt8 → List Nat
  | [] => indices
  | c :: rest =>
      if c = slash then recordSlashes (indices.set j i) (j + 1) (i + 1) rest
      else recordSlashes indices j (i + 1) rest

/-- The last entry is an index past the path. -/
def indexTable (path : List UInt8) : List Nat :=
  let count := path.count slash
  (recordSlashes (calloc (count + 1)) 0 0 path).set count path.length

/-- What `calloc` is asked for `strings[i]`. -/
def parsedSize (indices : List Nat) (i : Nat) : Nat :=
  indices.getD (i + 1) 0 - indices.getD i 0

def parsedArray (path : List UInt8) (indices : List Nat) (i : Nat) : List UInt8 :=
  let size := parsedSize indices i
  strncpy (calloc size) (path.drop (indices.getD i 0 + 1)) (size - 1)

def parsedArrays (path : List UInt8) : List (List UInt8) :=
  (List.range (path.count slash)).map (parsedArray path (indexTable path))

theorem recordSlashes_set (suffix : List UInt8) :
    ∀ (filled : List Nat) (i : Nat),
      (recordSlashes (filled ++ calloc (suffix.count slash + 1)) filled.length i
          suffix).set (filled.length + suffix.count slash) (i + suffix.length) =
        filled ++ slashIndices i suffix := by
  induction suffix with
  | nil =>
      intro filled i
      simp [recordSlashes, slashIndices, calloc]
  | cons c rest ih =>
      intro filled i
      rw [recordSlashes, slashIndices, List.length_cons]
      split
      · next heq =>
          have hrest := ih (filled ++ [i]) (i + 1)
          rw [heq, List.count_cons_self, calloc, List.replicate_succ,
            List.set_append_right _ _ (Nat.le_refl _), Nat.sub_self, List.set_cons_zero]
          rw [List.append_assoc, List.append_assoc, List.length_append,
            List.length_singleton, List.singleton_append, List.singleton_append, calloc]
            at hrest
          rw [← hrest]
          congr 1
          · omega
          · omega
      · next hne =>
          have hrest := ih filled (i + 1)
          rw [List.count_cons_of_ne hne, ← hrest]
          congr 1
          omega

theorem indexTable_eq (path : List UInt8) : indexTable path = slashIndices 0 path := by
  have htable := recordSlashes_set path [] 0
  rw [List.length_nil, Nat.zero_add, Nat.zero_add, List.nil_append, List.nil_append]
    at htable
  exact htable

theorem le_of_mem_slashIndices (path : List UInt8) :
    ∀ {i index : Nat}, index ∈ slashIndices i path → i ≤ index := by
  induction path with
  | nil =>
      intro i index hindex
      exact Nat.le_of_eq (List.mem_singleton.mp hindex).symm
  | cons c rest ih =>
      intro i index hindex
      rw [slashIndices] at hindex
      split at hindex
      · rcases List.mem_cons.mp hindex with rfl | hrest
        · exact Nat.le_refl _
        · exact Nat.le_of_succ_le (ih hrest)
      · exact Nat.le_of_succ_le (ih hindex)

theorem slashIndices_pairwise (path : List UInt8) :
    ∀ i, (slashIndices i path).Pairwise (· < ·) := by
  induction path with
  | nil => exact fun i => List.pairwise_singleton _ i
  | cons c rest ih =>
      intro i
      rw [slashIndices]
      split
      · exact List.pairwise_cons.mpr
          ⟨fun index hindex => le_of_mem_slashIndices rest hindex, ih (i + 1)⟩
      · exact ih (i + 1)

theorem parsedSize_pos {path : List UInt8} {i : Nat} (hi : i < path.count slash) :
    0 < parsedSize (indexTable path) i := by
  have hlength := length_slashIndices path 0
  rw [getNumDirs] at hlength
  apply Nat.sub_pos_of_lt
  rw [indexTable_eq, List.getD_eq_getElem _ _ (by omega),
    List.getD_eq_getElem _ _ (by omega)]
  exact List.pairwise_iff_getElem.mp (slashIndices_pairwise path 0) _ _ (by omega)
    (by omega) (Nat.lt_succ_self i)

theorem parsedArray_terminated {path : List UInt8} {i : Nat} (hi : i < path.count slash) :
    (parsedArray path (indexTable path) i).length = parsedSize (indexTable path) i ∧
      0 ∈ parsedArray path (indexTable path) i := by
  have hsize := parsedSize_pos hi
  refine ⟨?_, zero_mem_strncpy_calloc _ (by omega)⟩
  have hcalloc : (calloc (parsedSize (indexTable path) i) : List UInt8).length =
      parsedSize (indexTable path) i := List.length_replicate
  rw [parsedArray, length_strncpy _ (by omega), hcalloc]

/-- The arrays hold the strings between the indices. -/
theorem map_parsedArray {path : List UInt8} (hnul : 0 ∉ path) (indices : List Nat) :
    (List.range (indices.length - 1)).map
        (fun i => cString (parsedArray path indices i)) =
      pathStrings path indices := by
  induction indices with
  | nil => rfl
  | cons first rest ih =>
      cases rest with
      | nil => rfl
      | cons second rest =>
          have hdrop : 0 ∉ path.drop (first + 1) :=
            fun hzero => hnul (List.mem_of_mem_drop hzero)
          rw [List.length_cons, Nat.add_sub_cancel, List.length_cons,
            List.range_succ_eq_map, List.map_cons, List.map_map, pathStrings, ← ih]
          congr 1
          exact cString_strncpy_calloc hdrop _ _

theorem cString_parsedArrays {path : List UInt8} (hnul : 0 ∉ path) :
    (parsedArrays path).map cString = parsePath path := by
  have hlength := length_slashIndices path 0
  rw [getNumDirs] at hlength
  rw [parsedArrays, indexTable_eq, List.map_map, parsePath, ← map_parsedArray hnul,
    hlength]
  rfl

theorem count_slash_join (names : List (List UInt8)) :
    (names.flatMap (slash :: ·)).count slash =
      names.length + (names.map (List.count slash)).sum := by
  induction names with
  | nil => rfl
  | cons name rest ih =>
      rw [List.flatMap_cons, List.count_append, ih, List.count_cons_self,
        List.length_cons, List.map_cons, List.sum_cons]
      omega

theorem slash_not_mem_parsePath {path : List UInt8} (h : Absolute path)
    {name : List UInt8} (hname : name ∈ parsePath path) : slash ∉ name := by
  have hcount := count_slash_join (parsePath path)
  rw [join_parsePath h, length_parsePath, getNumDirs] at hcount
  have hsum : ((parsePath path).map (List.count slash)).sum = 0 := by omega
  exact List.count_eq_zero.mp
    (List.sum_eq_zero_iff_forall_eq_nat.mp hsum _ (List.mem_map_of_mem hname))

/-- `parsePath` cuts a path at each of its slashes and keeps the rest of it. -/
theorem parsePath_lossless {path : List UInt8} (h : Absolute path) :
    (parsedArrays path).length = getNumDirs path ∧
      (∀ i < getNumDirs path,
        (parsedArray path (indexTable path) i).length = parsedSize (indexTable path) i ∧
          0 ∈ parsedArray path (indexTable path) i) ∧
      (∀ array ∈ parsedArrays path, slash ∉ cString array) ∧
      ((parsedArrays path).map cString).flatMap (slash :: ·) = path ∧
      ∀ other, Absolute other →
        (parsedArrays other).map cString = (parsedArrays path).map cString →
          other = path := by
  have hstrings := cString_parsedArrays h.2
  refine ⟨?_, fun i hi => parsedArray_terminated hi, ?_, ?_, ?_⟩
  · rw [← length_parsePath, ← hstrings, List.length_map]
  · intro array harray
    refine slash_not_mem_parsePath h ?_
    rw [← hstrings]
    exact List.mem_map_of_mem harray
  · rw [hstrings]
    exact join_parsePath h
  · intro other hother hsame
    rw [hstrings, cString_parsedArrays hother.2] at hsame
    exact parsePath_inj hother h hsame

/-- `"/a//b/"` -/
theorem parsePath_lossless_slashes :
    (parsedArrays [47, 97, 47, 47, 98, 47]).length = 4 ∧
      ((parsedArrays [47, 97, 47, 47, 98, 47]).map cString).flatMap (slash :: ·) =
        [47, 97, 47, 47, 98, 47] := by
  have habsolute : Absolute [47, 97, 47, 47, 98, 47] := ⟨rfl, by decide⟩
  have h := parsePath_lossless habsolute
  exact ⟨h.1, h.2.2.2.1⟩

end RutgersOS.Sfs
