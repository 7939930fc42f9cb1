import Mathlib.Algebra.Order.BigOperators.Group.List
import Mathlib.Data.Rat.Floor
import Mathlib.Tactic.Linarith

/-! # Truncated means

A number is truncated to its integral part, toward zero. The truncated mean of integers whose sum is
not negative is their sum divided by their number. It is compared with other numbers by their
multiples (`le_mean_iff`), which says when one more zero does not lower it
(`mean_le_insert_zero_iff`). -/

namespace Hotstuff.Lib.Means

/-! ### Truncation -/

section Truncation

variable {K : Type*} [Ring K] [LinearOrder K] [FloorRing K] {x y : K}

/-- The integral part, toward zero. -/
def truncate (x : K) : ℤ := if 0 ≤ x then ⌊x⌋ else ⌈x⌉

theorem truncate_of_nonneg (h : 0 ≤ x) : truncate x = ⌊x⌋ := if_pos h

theorem truncate_nonneg [IsStrictOrderedRing K] (h : 0 ≤ x) : 0 ≤ truncate x := by
  rw [truncate_of_nonneg h]
  exact Int.floor_nonneg.mpr h

theorem truncate_mono (h : x ≤ y) : truncate x ≤ truncate y := by
  unfold truncate
  split_ifs with hx hy hy
  · exact Int.floor_mono h
  · exact absurd (hx.trans h) hy
  · exact (Int.ceil_nonpos.mpr (not_le.mp hx).le).trans (Int.floor_nonneg.mpr hy)
  · exact Int.ceil_mono h

end Truncation

/-! ### Means -/

section Mean

variable {xs ys : List ℤ} {a : ℤ}

/-- The truncated mean. That of no numbers is 0. -/
def mean (xs : List ℤ) : ℤ := truncate ((xs.sum : ℚ) / (xs.length : ℚ))

theorem mean_eq (h : 0 ≤ xs.sum) : mean xs = xs.sum / xs.length := by
  have hdiv : (0 : ℚ) ≤ (xs.sum : ℚ) / (xs.length : ℚ) :=
    div_nonneg (by exact_mod_cast h) (Nat.cast_nonneg _)
  rw [mean, truncate_of_nonneg hdiv, Rat.floor_intCast_div_natCast]

theorem mean_nonneg (h : 0 ≤ xs.sum) : 0 ≤ mean xs := by
  rw [mean_eq h]
  exact Int.ediv_nonneg h (Int.natCast_nonneg _)

theorem le_mean_iff (h : 0 ≤ xs.sum) (hlen : 0 < xs.length) :
    a ≤ mean xs ↔ xs.length * a ≤ xs.sum := by
  rw [mean_eq h, Int.le_ediv_iff_mul_le (by exact_mod_cast hlen), mul_comm]

/-- A smaller sum has the smaller mean over more numbers. -/
theorem mean_le_mean (h : 0 ≤ xs.sum) (hsum : xs.sum ≤ ys.sum) (hlen : ys.length ≤ xs.length) :
    mean xs ≤ mean ys := by
  rcases ys.length.eq_zero_or_pos with hys | hys
  · obtain rfl := List.length_eq_zero_iff.mp hys
    have hx : xs.sum = 0 := le_antisymm hsum h
    rw [mean_eq h, hx, Int.zero_ediv]
    exact mean_nonneg le_rfl
  · rw [le_mean_iff (h.trans hsum) hys]
    calc (ys.length : ℤ) * mean xs
        ≤ xs.length * mean xs :=
          mul_le_mul_of_nonneg_right (by exact_mod_cast hlen) (mean_nonneg h)
      _ ≤ xs.sum := (le_mean_iff h (hys.trans_le hlen)).mp le_rfl
      _ ≤ ys.sum := hsum

/-- When the two means agree. -/
theorem mean_eq_mean_iff (h : 0 ≤ xs.sum) (hsum : xs.sum ≤ ys.sum) (hlen : ys.length ≤ xs.length)
    (hpos : 0 < xs.length) :
    mean xs = mean ys ↔ xs.length * (ys.sum / ys.length) ≤ xs.sum := by
  rw [← mean_eq (h.trans hsum), ← le_mean_iff h hpos]
  exact ⟨ge_of_eq, (mean_le_mean h hsum hlen).antisymm⟩

/-- One more zero does not lower the mean exactly if the remainder makes up for it. -/
theorem mean_le_insert_zero_iff (h : 0 ≤ (xs ++ ys).sum) :
    mean (xs ++ ys) ≤ mean (xs ++ 0 :: ys) ↔
      (xs ++ ys).sum / (xs ++ ys).length ≤ (xs ++ ys).sum % (xs ++ ys).length := by
  have hperm : (xs ++ 0 :: ys).Perm (0 :: (xs ++ ys)) := List.perm_middle
  have hsum : (xs ++ 0 :: ys).sum = (xs ++ ys).sum := by
    rw [hperm.sum_eq, List.sum_cons, zero_add]
  have hlen : (xs ++ 0 :: ys).length = (xs ++ ys).length + 1 := hperm.length_eq
  rw [le_mean_iff (hsum ▸ h) (by omega), mean_eq h, hsum, hlen, Nat.cast_succ, add_mul, one_mul]
  have hdiv := Int.mul_ediv_add_emod (xs ++ ys).sum (xs ++ ys).length
  constructor <;> intro hle <;> linarith

end Mean

/-- What is missing adds nothing. -/
theorem sum_map_le_sum_filterMap {α : Type*} {f : α → Option ℤ} {g : α → ℤ}
    (h : ∀ x, g x ≤ (f x).getD 0) (l : List α) : (l.map g).sum ≤ (l.filterMap f).sum := by
  induction l with
  | nil => exact le_rfl
  | cons x l ih =>
    have hx := h x
    rw [List.map_cons, List.sum_cons, List.filterMap_cons]
    rcases hf : f x with _ | d <;> rw [hf] at hx
    · exact add_le_of_nonpos_of_le hx ih
    · rw [List.sum_cons]
      exact add_le_add hx ih

end Hotstuff.Lib.Means
