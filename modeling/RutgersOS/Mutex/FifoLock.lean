import Mathlib.Data.List.Nodup

namespace RutgersOS.Mutex

/-! An abstract lock that admits its clients one at a time in the order of
their arrival.  The state is the history of arrivals with two counts. -/

structure FifoLock (Tid : Type u) where
  arrived : List Tid
  admitted : Nat
  departed : Nat
  departed_le : departed ≤ admitted
  single : admitted ≤ departed + 1
  admitted_le : admitted ≤ arrived.length
  distinct : (arrived.drop departed).Nodup

namespace FifoLock

variable {Tid : Type u}

def empty : FifoLock Tid where
  arrived := []
  admitted := 0
  departed := 0
  departed_le := Nat.le_refl 0
  single := Nat.zero_le 1
  admitted_le := Nat.le_refl 0
  distinct := List.nodup_nil

def present (lock : FifoLock Tid) : List Tid :=
  lock.arrived.drop lock.departed

def admissions (lock : FifoLock Tid) : List Tid :=
  lock.arrived.take lock.admitted

def Holder (lock : FifoLock Tid) (t : Tid) : Prop :=
  lock.departed < lock.admitted ∧ lock.arrived[lock.departed]? = some t

def WaitsAt (lock : FifoLock Tid) (i : Nat) (t : Tid) : Prop :=
  lock.admitted ≤ i ∧ lock.arrived[i]? = some t

theorem admissions_prefix (lock : FifoLock Tid) :
    lock.admissions <+: lock.arrived :=
  List.take_prefix _ _

theorem length_present (lock : FifoLock Tid) :
    lock.departed + lock.present.length = lock.arrived.length := by
  have hdeparted := lock.departed_le
  have hadmitted := lock.admitted_le
  rw [present, List.length_drop]
  omega

theorem Holder.unique {lock : FifoLock Tid} {t u : Tid}
    (ht : lock.Holder t) (hu : lock.Holder u) : t = u :=
  Option.some.inj (ht.2.symm.trans hu.2)

theorem Holder.present {lock : FifoLock Tid} {t : Tid} (h : lock.Holder t) :
    t ∈ lock.present := by
  apply List.mem_of_getElem? (i := 0)
  rw [FifoLock.present, List.getElem?_drop]
  exact h.2

theorem WaitsAt.present {lock : FifoLock Tid} {i : Nat} {t : Tid}
    (h : lock.WaitsAt i t) : t ∈ lock.present := by
  have hdeparted := lock.departed_le
  have hindex := h.1
  apply List.mem_of_getElem? (i := i - lock.departed)
  rw [FifoLock.present, List.getElem?_drop,
    Nat.add_sub_cancel' (Nat.le_trans hdeparted hindex)]
  exact h.2

theorem holder_or_waitsAt {lock : FifoLock Tid} {t : Tid}
    (h : t ∈ lock.present) : lock.Holder t ∨ ∃ i, lock.WaitsAt i t := by
  obtain ⟨j, hj⟩ := List.mem_iff_getElem?.mp h
  rw [present, List.getElem?_drop] at hj
  rcases Nat.lt_or_ge (lock.departed + j) lock.admitted with hlt | hge
  · have hsingle := lock.single
    have hzero : j = 0 := by omega
    subst hzero
    exact Or.inl ⟨hlt, hj⟩
  · exact Or.inr ⟨lock.departed + j, hge, hj⟩

theorem index_unique {lock : FifoLock Tid} {i j : Nat} {t : Tid}
    (hi : lock.departed ≤ i) (hj : lock.departed ≤ j)
    (hti : lock.arrived[i]? = some t) (htj : lock.arrived[j]? = some t) :
    i = j := by
  obtain ⟨i, rfl⟩ := Nat.exists_eq_add_of_le hi
  obtain ⟨j, rfl⟩ := Nat.exists_eq_add_of_le hj
  rw [← List.getElem?_drop] at hti htj
  have hlt := (List.getElem?_eq_some_iff.mp hti).1
  rw [(List.getElem?_inj hlt lock.distinct).mp (hti.trans htj.symm)]

theorem WaitsAt.ne_holder {lock : FifoLock Tid} {i : Nat} {t u : Tid}
    (hu : lock.WaitsAt i u) (ht : lock.Holder t) : u ≠ t := by
  rintro rfl
  obtain ⟨hindex, hwaits⟩ := hu
  obtain ⟨hheld, hholds⟩ := ht
  have heq := index_unique (Nat.le_trans lock.departed_le hindex)
    (Nat.le_refl _) hwaits hholds
  omega

def arrive (lock : FifoLock Tid) (t : Tid) (h : t ∉ lock.present) :
    FifoLock Tid where
  arrived := lock.arrived ++ [t]
  admitted := lock.admitted
  departed := lock.departed
  departed_le := lock.departed_le
  single := lock.single
  admitted_le := by
    have hle := lock.admitted_le
    rw [List.length_append]
    omega
  distinct := by
    rw [List.drop_append_of_le_length
      (Nat.le_trans lock.departed_le lock.admitted_le)]
    exact List.nodup_append'.mpr ⟨lock.distinct, List.nodup_singleton t, by
      simpa [present] using h⟩

def letIn (lock : FifoLock Tid) (hfree : lock.admitted = lock.departed)
    (hwaiting : lock.admitted < lock.arrived.length) : FifoLock Tid where
  arrived := lock.arrived
  admitted := lock.admitted + 1
  departed := lock.departed
  departed_le := by omega
  single := by omega
  admitted_le := hwaiting
  distinct := lock.distinct

def depart (lock : FifoLock Tid) (hheld : lock.departed < lock.admitted) :
    FifoLock Tid where
  arrived := lock.arrived
  admitted := lock.admitted
  departed := lock.departed + 1
  departed_le := hheld
  single := by
    have hsingle := lock.single
    omega
  admitted_le := lock.admitted_le
  distinct := by
    rw [← List.drop_drop]
    exact lock.distinct.sublist (List.drop_sublist _ _)

theorem present_arrive (lock : FifoLock Tid) {t : Tid} (h : t ∉ lock.present) :
    (lock.arrive t h).present = lock.present ++ [t] :=
  List.drop_append_of_le_length
    (Nat.le_trans lock.departed_le lock.admitted_le)

theorem present_depart (lock : FifoLock Tid)
    (hheld : lock.departed < lock.admitted) :
    (lock.depart hheld).present = lock.present.drop 1 := by
  rw [present, present, List.drop_drop]
  rfl

theorem admissions_arrive (lock : FifoLock Tid) {t : Tid}
    (h : t ∉ lock.present) : (lock.arrive t h).admissions = lock.admissions :=
  List.take_append_of_le_length lock.admitted_le

theorem admissions_letIn (lock : FifoLock Tid)
    (hfree : lock.admitted = lock.departed)
    (hwaiting : lock.admitted < lock.arrived.length) {t : Tid}
    (ht : lock.arrived[lock.admitted]? = some t) :
    (lock.letIn hfree hwaiting).admissions = lock.admissions ++ [t] := by
  change lock.arrived.take (lock.admitted + 1) = _
  rw [List.take_add_one, ht]
  rfl

theorem arrive_waitsAt {lock : FifoLock Tid} {t u : Tid}
    {h : t ∉ lock.present} {i : Nat} (hu : (lock.arrive t h).WaitsAt i u) :
    lock.WaitsAt i u ∨ i = lock.arrived.length ∧ u = t := by
  obtain ⟨hindex, hget⟩ := hu
  change (lock.arrived ++ [t])[i]? = some u at hget
  rcases Nat.lt_or_ge i lock.arrived.length with hlt | hge
  · rw [List.getElem?_append_left hlt] at hget
    exact Or.inl ⟨hindex, hget⟩
  · rw [List.getElem?_append_right hge, List.getElem?_singleton] at hget
    split at hget
    · next hzero =>
        exact Or.inr ⟨by omega, (Option.some.inj hget).symm⟩
    · cases hget

theorem arrive_holder {lock : FifoLock Tid} {t u : Tid}
    {h : t ∉ lock.present} (hu : (lock.arrive t h).Holder u) :
    lock.Holder u := by
  obtain ⟨hheld, hget⟩ := hu
  have hle := lock.admitted_le
  have hlt : lock.departed < lock.arrived.length := Nat.lt_of_lt_of_le hheld hle
  change (lock.arrived ++ [t])[lock.departed]? = some u at hget
  rw [List.getElem?_append_left hlt] at hget
  exact ⟨hheld, hget⟩

end FifoLock

end RutgersOS.Mutex
