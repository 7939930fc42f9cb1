import Mathlib

/-! # Repeated deliveries

Numbered messages that are delivered at least once each, in the order of their numbers up to
repetitions. `Gapless gone l` says that a number in `l` has no gap before it: each smaller one
stands earlier in the list, or is gone. Then, without the repetitions and what is gone, the list is
an initial part of the numbers (`Gapless.prefix_range`). -/

namespace Hotstuff.Lib.Redelivery

variable {gone gone' : ℕ → Prop} {l l' : List ℕ} {n N : ℕ}

/-- Each number smaller than one of `l` stands before it, or is gone. -/
def Gapless (gone : ℕ → Prop) (l : List ℕ) : Prop :=
  ∀ l₁ n l₂, l = l₁ ++ n :: l₂ → ∀ m < n, gone m ∨ m ∈ l₁

theorem gapless_nil : Gapless gone [] := by
  intro l₁ n l₂ h
  simp at h

theorem Gapless.mono (h : Gapless gone l) (hg : ∀ m, gone m → gone' m) : Gapless gone' l :=
  fun l₁ n l₂ hl m hm => (h l₁ n l₂ hl m hm).imp_left (hg m)

theorem Gapless.of_append (h : Gapless gone (l ++ l')) : Gapless gone l :=
  fun l₁ n l₂ hl => h l₁ n (l₂ ++ l') (by simp [hl])

theorem Gapless.last (h : Gapless gone (l ++ [n])) : ∀ m < n, gone m ∨ m ∈ l := h l n [] rfl

/-- The next number: the smaller ones stand in the list, or are gone. -/
theorem Gapless.snoc (h : Gapless gone l) (hn : ∀ m < n, gone m ∨ m ∈ l) :
    Gapless gone (l ++ [n]) := by
  intro l₁ x l₂ hl
  rcases List.eq_nil_or_concat l₂ with rfl | ⟨l₃, y, rfl⟩
  · obtain ⟨rfl, hx⟩ := List.append_inj' hl rfl
    cases hx
    exact hn
  · have hl' : l ++ [n] = (l₁ ++ x :: l₃) ++ [y] := by simpa using hl
    obtain ⟨rfl, -⟩ := List.append_inj' hl' rfl
    exact h l₁ x l₃ rfl

theorem Gapless.head (h : Gapless gone (n :: l)) : ∀ m < n, gone m := by
  intro m hm
  simpa using h [] n l rfl m hm

/-- Without the first number, which is gone then. -/
theorem Gapless.tail (h : Gapless gone (n :: l)) (hg : ∀ m, gone m ∨ m = n → gone' m) :
    Gapless gone' l := by
  intro l₁ x l₂ hl m hm
  have hm' := h (n :: l₁) x l₂ (by rw [hl, List.cons_append]) m hm
  rw [List.mem_cons, ← or_assoc] at hm'
  exact hm'.imp_left (hg m)

section Filter

variable {P : ℕ → Prop} [DecidablePred P]

theorem filter_range_succ (hP : P n) :
    (List.range (n + 1)).filter (P ·) = (List.range n).filter (P ·) ++ [n] := by
  rw [List.range_succ, List.filter_append, List.filter_cons_of_pos (by simpa using hP)]
  rfl

theorem filter_range_prefix (h : n ≤ N) :
    (List.range n).filter (P ·) <+: (List.range N).filter (P ·) := by
  obtain ⟨k, rfl⟩ := Nat.exists_eq_add_of_le h
  rw [List.range_add, List.filter_append]
  exact List.prefix_append _ _

/-- An initial part of a filtered range that has all up to `n`, and not `n`. -/
theorem eq_filter_range (h : l <+: (List.range N).filter (P ·)) (hP : P n) (hn : n < N)
    (hl : n ∉ l) (hall : ∀ m < n, P m → m ∈ l) : l = (List.range n).filter (P ·) := by
  have hnd : ((List.range n).filter (P ·)).Nodup := List.nodup_range.filter _
  have hle : ((List.range n).filter (P ·)).length ≤ l.length := by
    refine (hnd.subperm fun m hm => ?_).length_le
    rw [List.mem_filter, List.mem_range] at hm
    exact hall m hm.1 (of_decide_eq_true hm.2)
  -- if it were longer, it would have `n`
  have hsucc : (List.range n).filter (P ·) ++ [n] <+: (List.range N).filter (P ·) :=
    filter_range_succ hP ▸ filter_range_prefix hn
  rcases List.prefix_or_prefix_of_prefix h hsucc with hpre | hpre
  · have hlast := List.prefix_concat_iff.mp hpre
    rcases hlast with rfl | hpre
    · simp at hl
    · exact hpre.eq_of_length_le hle
  · exact absurd (hpre.subset (by simp)) hl

/-- **A gapless list is an initial part of the numbers**, without the repetitions and what is
gone. -/
theorem Gapless.prefix_range (h : Gapless (fun m => ¬ P m) l) (hN : ∀ m ∈ l, m < N) :
    l.eraseDups.filter (P ·) <+: (List.range N).filter (P ·) := by
  induction l using List.reverseRecOn with
  | nil => simp
  | append_singleton l n ih =>
    have ih := ih h.of_append fun m hm => hN m (List.mem_append_left _ hm)
    rw [List.eraseDups_append, List.filter_append]
    by_cases hn : n ∈ l
    · simpa [List.removeAll, hn] using ih
    have hone : ([n] : List ℕ).removeAll l = [n] := by simp [List.removeAll, hn]
    by_cases hP : P n
    swap
    · simpa [hone, List.eraseDups_cons, hP] using ih
    have hlt : n < N := hN n (by simp)
    have heq := eq_filter_range ih hP hlt (by simp [hn]) fun m hm hPm => by
      rcases h.last m hm with hm' | hm'
      · exact absurd hPm hm'
      · simpa [hPm] using hm'
    have hnext : [n].eraseDups.filter (P ·) = [n] := by simp [List.eraseDups_cons, hP]
    rw [heq, hone, hnext, ← filter_range_succ hP]
    exact filter_range_prefix hlt

end Filter

end Hotstuff.Lib.Redelivery
