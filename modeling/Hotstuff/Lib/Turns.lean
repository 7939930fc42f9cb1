import Mathlib

/-! # Taking turns

The elements of a list without repetition take turns: in round `r` it is the turn of the one at the
index `r % length`. In any `length` consecutive rounds each element has one turn (`bijOn_window`).
If the list is sorted it is determined by its elements (`insertionSort_congr`), and the index of an
element is the number of smaller ones (`getElem?_eq_some_iff`). -/

namespace Hotstuff.Lib.Turns

variable {α : Type*} {l l' : List α}

/-! ### Windows -/

theorem injOn_window (hl : l.Nodup) (r : ℕ) :
    Set.InjOn (fun i => l[(r + i) % l.length]?) (Set.Iio l.length) := by
  intro i hi j hj hij
  have hpos : 0 < l.length := Nat.zero_lt_of_lt hi
  have hmod : (r + i) % l.length = (r + j) % l.length := by
    have hlt : (r + i) % l.length < l.length := Nat.mod_lt _ hpos
    exact (List.getElem?_inj hlt hl).mp hij
  have hmod' : i ≡ j [MOD l.length] := Nat.ModEq.add_left_cancel' r hmod
  exact Nat.ModEq.eq_of_lt_of_lt hmod' hi hj

/-- **Each element has one turn** in the rounds from `r` to `r + length - 1`. -/
theorem bijOn_window (hl : l.Nodup) (r : ℕ) :
    Set.BijOn (fun i => l[(r + i) % l.length]?) (Set.Iio l.length) (some '' {a | a ∈ l}) := by
  refine ⟨fun i hi => ?_, injOn_window hl r, ?_⟩
  · have hlt : (r + i) % l.length < l.length := Nat.mod_lt _ (Nat.zero_lt_of_lt hi)
    exact ⟨_, List.getElem_mem hlt, (List.getElem?_eq_getElem hlt).symm⟩
  · rintro _ ⟨a, ha, rfl⟩
    obtain ⟨j, hj, rfl⟩ := List.mem_iff_getElem.mp ha
    -- the round with index `j` after the last multiple of the length that is at least `r`
    have hpos : 0 < l.length := Nat.zero_lt_of_lt hj
    refine ⟨(j + (l.length - r % l.length)) % l.length, Nat.mod_lt _ hpos, ?_⟩
    have hr : r % l.length < l.length := Nat.mod_lt r hpos
    have hidx : (r + (j + (l.length - r % l.length)) % l.length) % l.length = j := by
      rw [Nat.add_mod_mod, ← Nat.mod_add_mod,
        show r % l.length + (j + (l.length - r % l.length)) = j + l.length by omega,
        Nat.add_mod_right, Nat.mod_eq_of_lt hj]
    simp only [hidx, List.getElem?_eq_getElem hj]

/-! ### Sorted lists -/

section Sorted

variable [LinearOrder α]

/-- Lists of the same elements without repetition are the same when sorted. -/
theorem insertionSort_congr (h : l.Nodup) (h' : l'.Nodup) (hm : ∀ a, a ∈ l ↔ a ∈ l') :
    l.insertionSort (· ≤ ·) = l'.insertionSort (· ≤ ·) := by
  have hp : (l.insertionSort (· ≤ ·)).Perm (l'.insertionSort (· ≤ ·)) :=
    ((List.perm_insertionSort _ l).trans ((List.perm_ext_iff_of_nodup h h').mpr hm)).trans
      (List.perm_insertionSort _ l').symm
  exact hp.eq_of_sortedLE List.sortedLE_insertionSort List.sortedLE_insertionSort

theorem countP_lt_of_getElem? : ∀ {l : List α} {i : ℕ} {a : α}, l.SortedLT → l[i]? = some a →
    l.countP (· < a) = i
  | [], i, a, _, h => by simp at h
  | b :: l, 0, a, hl, h => by
    obtain rfl : b = a := by simpa using h
    rw [List.countP_eq_zero]
    intro x hx
    rcases List.mem_cons.mp hx with rfl | hx
    · simp
    · simpa using ((List.pairwise_cons.mp hl.pairwise).1 x hx).le
  | b :: l, i + 1, a, hl, h => by
    have hp := List.pairwise_cons.mp hl.pairwise
    have ha : l[i]? = some a := by simpa using h
    have hb : b < a := hp.1 a (List.mem_of_getElem? ha)
    rw [List.countP_cons_of_pos (by simpa using hb), countP_lt_of_getElem? hp.2.sortedLT ha]

/-- In a sorted list the index of an element is the number of smaller ones. -/
theorem getElem?_eq_some_iff (hl : l.SortedLT) {i : ℕ} {a : α} :
    l[i]? = some a ↔ a ∈ l ∧ l.countP (· < a) = i := by
  constructor
  · intro h
    exact ⟨List.mem_of_getElem? h, countP_lt_of_getElem? hl h⟩
  · rintro ⟨ha, rfl⟩
    obtain ⟨i, hi⟩ := List.mem_iff_getElem?.mp ha
    rwa [countP_lt_of_getElem? hl hi]

end Sorted

end Hotstuff.Lib.Turns
