import Mathlib

/-! # Weighted quorums

Authorities have weights `w`; a quorum is a set of authorities of weight at least a threshold. Two
sets whose weights together exceed that of all authorities by more than `f` have a common authority
outside any coalition of weight `f` (`exists_inter_not_bad`). -/

namespace Hotstuff.Lib.Quorum

variable {α : Type*} [DecidableEq α] {w : α → ℕ} {U A B : Finset α}

/-- The common part of two sets is as heavy as the two weights exceed the total. -/
theorem le_weight_inter (hA : A ⊆ U) (hB : B ⊆ U) :
    ∑ a ∈ A, w a + ∑ a ∈ B, w a ≤ ∑ a ∈ U, w a + ∑ a ∈ A ∩ B, w a := by
  have hunion : ∑ a ∈ A ∪ B, w a ≤ ∑ a ∈ U, w a :=
    Finset.sum_le_sum_of_subset (Finset.union_subset hA hB)
  have hsum : ∑ a ∈ A ∪ B, w a + ∑ a ∈ A ∩ B, w a = ∑ a ∈ A, w a + ∑ a ∈ B, w a :=
    Finset.sum_union_inter
  omega

/-- The common part of two heavy sets is heavy. -/
theorem lt_weight_inter {q f : ℕ} (hA : A ⊆ U) (hB : B ⊆ U) (hqA : q ≤ ∑ a ∈ A, w a)
    (hqB : q ≤ ∑ a ∈ B, w a) (hq : ∑ a ∈ U, w a + f < 2 * q) : f < ∑ a ∈ A ∩ B, w a := by
  have h := le_weight_inter (w := w) hA hB
  omega

/-- A set that is heavier than a coalition has a member outside it. -/
theorem exists_not_mem_of_lt {f : ℕ} (hA : f < ∑ a ∈ A, w a) (hB : ∑ a ∈ B, w a ≤ f) :
    ∃ a ∈ A, a ∉ B := by
  by_contra hno
  push Not at hno
  have h : ∑ a ∈ A, w a ≤ ∑ a ∈ B, w a := Finset.sum_le_sum_of_subset hno
  omega

/-- **Quorum intersection**: the common part of two heavy sets is not inside a light coalition. -/
theorem exists_inter_not_bad {q f : ℕ} (bad : α → Prop) [DecidablePred bad] (hA : A ⊆ U)
    (hB : B ⊆ U) (hqA : q ≤ ∑ a ∈ A, w a) (hqB : q ≤ ∑ a ∈ B, w a)
    (hf : ∑ a ∈ U with bad a, w a ≤ f) (hq : ∑ a ∈ U, w a + f < 2 * q) :
    ∃ a ∈ A, a ∈ B ∧ ¬ bad a := by
  obtain ⟨a, ha, hbad⟩ := exists_not_mem_of_lt (lt_weight_inter hA hB hqA hqB hq) hf
  obtain ⟨haA, haB⟩ := Finset.mem_inter.mp ha
  exact ⟨a, haA, haB, fun h => hbad (Finset.mem_filter.mpr ⟨hA haA, h⟩)⟩

/-- The threshold `2N/3 + 1` of a committee of weight `N ≥ 3f + 1` makes quorums intersect. -/
theorem two_thirds_threshold {N f : ℕ} (h : 3 * f + 1 ≤ N) : N + f < 2 * (2 * N / 3 + 1) := by
  omega

/-- All but a third of the weight reach the threshold. -/
theorem threshold_le_of_lt {N f : ℕ} (h : N ≤ 3 * f + 3) (hN : 3 * f + 1 ≤ N) :
    2 * N / 3 + 1 ≤ N - f := by
  omega

end Hotstuff.Lib.Quorum
