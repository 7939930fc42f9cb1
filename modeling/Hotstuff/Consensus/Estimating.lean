import Hotstuff.Consensus.Pacing

/-! # The estimates of the adaptive timer

With the rationals as `F`. The estimate is an average of the initial timeout and of the samples, and
the deviation an average of a quarter of the initial timeout and of distances between samples and
estimates, so that both are bounded by the samples (`Estimates`); the timeout is at least as long as
the sample it was last computed from (`le_calculated`), up to the cap. This holds after any calls of
the functions of the timer (`adaptive_bounds`). -/

namespace Hotstuff.Consensus.Pacing

open Hotstuff.Primitives

/-! ### Averages -/

section Average

variable {a x y lo hi : ℚ}

theorem le_average (ha : 0 ≤ a) (ha' : a ≤ 1) (hx : lo ≤ x) (hy : lo ≤ y) :
    lo ≤ (1 - a) * x + a * y := by
  have h1 := mul_nonneg (sub_nonneg.mpr ha') (sub_nonneg.mpr hx)
  have h2 := mul_nonneg ha (sub_nonneg.mpr hy)
  linarith

theorem average_le (ha : 0 ≤ a) (ha' : a ≤ 1) (hx : x ≤ hi) (hy : y ≤ hi) :
    (1 - a) * x + a * y ≤ hi := by
  have h1 := mul_nonneg (sub_nonneg.mpr ha') (sub_nonneg.mpr hx)
  have h2 := mul_nonneg ha (sub_nonneg.mpr hy)
  linarith

/-- Four deviations above the average are no less than the sample. -/
theorem le_average_add (ha : 0 ≤ a) (ha' : a ≤ 1) {d : ℚ} (hd : 0 ≤ d) :
    y ≤ (1 - a) * x + a * y + 4 * ((1 - 0.25) * d + 0.25 * |y - x|) := by
  have h1 : y - x ≤ |y - x| := le_abs_self _
  have h2 : 0 ≤ |y - x| := abs_nonneg _
  rcases le_total x y with hxy | hxy
  · have h3 := mul_nonneg ha (sub_nonneg.mpr hxy)
    linarith
  · have h3 := mul_nonneg (sub_nonneg.mpr ha') (sub_nonneg.mpr hxy)
    linarith

end Average

namespace Timer

/-! ### Calls -/

/-- A call of a function of the timer. -/
inductive Call where
  | startRound (now : Instant)
  | onRoundComplete (now : Instant)
  | reset (now : Instant)

variable {F : Type} [F64 F]

def call (t : Timer F) : Call → Timer F
  | .startRound now => t.startRound now
  | .onRoundComplete now => t.onRoundComplete now
  | .reset now => t.reset now

/-- The sample that the call measures, in milliseconds. -/
def sample (t : Timer F) : Call → Option ℕ
  | .onRoundComplete now => t.roundStartTime.map fun startTime => now - startTime
  | _ => none

/-- The samples measured by a sequence of calls. -/
def samples : Timer F → List Call → List ℕ
  | _, [] => []
  | t, c :: cs => (t.sample c).toList ++ samples (t.call c) cs

/-! ### Bounds -/

/-- The estimates, when the initial timeout and the samples so far are between `lo` and `hi`. -/
structure Estimates (initial lo hi : ℕ) (t : Timer ℚ) : Prop where
  alpha : t.alpha = 0.125
  beta : t.beta = 0.25
  minTimeout : t.minTimeout = 1500
  maxTimeout : t.maxTimeout = 30000
  dev_nonneg : 0 ≤ t.devRtt
  lo_le : lo ≤ t.estimatedRtt
  le_hi : t.estimatedRtt ≤ hi
  dev_le : t.devRtt ≤ max (initial / 4 : ℚ) (hi - lo)

/-- The timeout, when the last sample, if any, is `last`. -/
def Fits (last : Option ℕ) (t : Timer ℚ) : Prop :=
  ∀ s ∈ last, 1500 ≤ t.currentTimeout.toNat ∧ t.currentTimeout.toNat ≤ 30000 ∧
    min s 30000 ≤ t.currentTimeout.toNat

theorem estimates_new (now : Instant) (initial : UInt64) :
    Estimates initial.toNat initial.toNat initial.toNat (new now initial : Timer ℚ) := by
  have hpos : (0 : ℚ) ≤ initial.toNat / 4 := by positivity
  exact ⟨rfl, rfl, rfl, rfl, hpos, le_refl _, le_refl _, le_max_left _ _⟩

section Update

variable {t : Timer ℚ} {initial lo hi : ℕ} {now startTime : Instant}

/-- The timeout that is computed from the estimates. -/
def calculatedTimeout (t : Timer ℚ) : ℚ := t.estimatedRtt + 4 * t.devRtt

/-- What a new sample `s` makes of the timer. -/
structure Updated (s : ℚ) (t t' : Timer ℚ) : Prop where
  same : t'.alpha = t.alpha ∧ t'.beta = t.beta ∧ t'.minTimeout = t.minTimeout ∧
    t'.maxTimeout = t.maxTimeout
  dev : t'.devRtt = (1 - t.beta) * t.devRtt + t.beta * |s - t.estimatedRtt|
  estimated : t'.estimatedRtt = (1 - t.alpha) * t.estimatedRtt + t.alpha * s
  timeout : t'.currentTimeout = F64.toU64 (min (max t'.calculatedTimeout t.minTimeout.toNat)
    t.maxTimeout.toNat : ℚ)

theorem onRoundComplete_updated (h : t.roundStartTime = some startTime) :
    Updated (now - startTime : ℕ) t (t.onRoundComplete now) := by
  unfold onRoundComplete
  rw [h]
  exact ⟨⟨rfl, rfl, rfl, rfl⟩, rfl, rfl, rfl⟩

theorem Estimates.update {s : ℕ} {t' : Timer ℚ} (ht : Estimates initial lo hi t)
    (h : Updated s t t') : Estimates initial (min lo s) (max hi s) t' := by
  have hlo : ((min lo s : ℕ) : ℚ) = min (lo : ℚ) s := Nat.cast_min lo s
  have hhi : ((max hi s : ℕ) : ℚ) = max (hi : ℚ) s := Nat.cast_max hi s
  have hlo' : ((min lo s : ℕ) : ℚ) ≤ t.estimatedRtt := by
    rw [hlo]
    exact (min_le_left _ _).trans ht.lo_le
  have hhi' : t.estimatedRtt ≤ ((max hi s : ℕ) : ℚ) := by
    rw [hhi]
    exact ht.le_hi.trans (le_max_left _ _)
  have hs : ((min lo s : ℕ) : ℚ) ≤ s := by
    rw [hlo]
    exact min_le_right _ _
  have hs' : (s : ℚ) ≤ ((max hi s : ℕ) : ℚ) := by
    rw [hhi]
    exact le_max_right _ _
  obtain ⟨ha, hb, hmin, hmax⟩ := h.same
  have hdev := h.dev
  have hest := h.estimated
  rw [ht.beta] at hdev
  rw [ht.alpha] at hest
  refine ⟨ha.trans ht.alpha, hb.trans ht.beta, hmin.trans ht.minTimeout, hmax.trans ht.maxTimeout,
    ?_, ?_, ?_, ?_⟩
  · rw [hdev]
    exact le_average (by norm_num) (by norm_num) ht.dev_nonneg (abs_nonneg _)
  · rw [hest]
    exact le_average (by norm_num) (by norm_num) hlo' hs
  · rw [hest]
    exact average_le (by norm_num) (by norm_num) hhi' hs'
  · -- the old deviation is within the old bounds, the distance of the sample within the new ones
    rw [hdev]
    refine average_le (by norm_num) (by norm_num) (ht.dev_le.trans (max_le_max_left _ ?_)) ?_
    · rw [hlo, hhi]
      exact sub_le_sub (le_max_left _ _) (min_le_left _ _)
    · refine le_max_of_le_right (abs_le.mpr ⟨?_, ?_⟩) <;> linarith

theorem toU64_toNat {x : ℚ} {n : ℕ} (hn : n < 2 ^ 64) (h : x ≤ n) :
    (F64.toU64 x).toNat = ⌊x⌋₊ := by
  have hle : ⌊x⌋.toNat ≤ n := Nat.floor_le_of_le h
  show (UInt64.ofNat (min ⌊x⌋.toNat (2 ^ 64 - 1))).toNat = _
  rw [min_eq_left (by omega)]
  exact UInt64.toNat_ofNat_of_lt (by unfold UInt64.size; omega)

/-- **The timeout after a sample** is within its bounds and no less than the sample, up to the
cap. -/
theorem fits_update {s : ℕ} {t' : Timer ℚ} (ht : Estimates initial lo hi t) (h : Updated s t t') :
    Fits (some s) t' := by
  have hle : (s : ℚ) ≤ t'.calculatedTimeout := by
    unfold calculatedTimeout
    rw [h.dev, h.estimated, ht.alpha, ht.beta]
    exact le_average_add (by norm_num) (by norm_num) ht.dev_nonneg
  have hcap : (min (max t'.calculatedTimeout (1500 : ℕ)) (30000 : ℕ) : ℚ) ≤ (30000 : ℕ) :=
    min_le_right _ _
  have htime : t'.currentTimeout.toNat =
      ⌊(min (max t'.calculatedTimeout (1500 : ℕ)) (30000 : ℕ) : ℚ)⌋₊ := by
    rw [← toU64_toNat (by norm_num) hcap, h.timeout, ht.minTimeout, ht.maxTimeout]
    rfl
  intro s' hs'
  cases Option.mem_some.mp hs'
  rw [htime]
  refine ⟨Nat.le_floor (le_min (le_max_right _ _) (by norm_num)), Nat.floor_le_of_le hcap,
    Nat.le_floor ?_⟩
  rw [Nat.cast_min]
  exact min_le_min_right _ (hle.trans (le_max_left _ _))

end Update

/-! ### Sequences of calls -/

section Calls

variable {t : Timer ℚ} {initial lo hi : ℕ} {last : Option ℕ}

/-- A call that measures nothing changes no estimate. -/
theorem call_of_sample_none {c : Call} (h : t.sample c = none) :
    (t.call c).learned = t.learned ∧ (t.call c).alpha = t.alpha ∧ (t.call c).beta = t.beta ∧
      (t.call c).minTimeout = t.minTimeout ∧ (t.call c).maxTimeout = t.maxTimeout := by
  cases c with
  | startRound now | reset now => exact ⟨rfl, rfl, rfl, rfl, rfl⟩
  | onRoundComplete now =>
    have hnone : t.roundStartTime = none := Option.map_eq_none_iff.mp h
    have heq : t.call (.onRoundComplete now) = t := by
      show t.onRoundComplete now = t
      unfold onRoundComplete
      rw [hnone]
    rw [heq]
    exact ⟨rfl, rfl, rfl, rfl, rfl⟩

theorem call_updated {c : Call} {s : ℕ} (h : t.sample c = some s) : Updated s t (t.call c) := by
  cases c with
  | startRound | reset => cases h
  | onRoundComplete now =>
    obtain ⟨startTime, hstart, rfl⟩ := Option.map_eq_some_iff.mp h
    exact onRoundComplete_updated hstart

/-- **The bounds after a sequence of calls.** -/
theorem bounds_of_calls : ∀ (cs : List Call) {t : Timer ℚ} {lo hi : ℕ} {last : Option ℕ},
    Estimates initial lo hi t → Fits last t →
      Estimates initial ((t.samples cs).foldl min lo) ((t.samples cs).foldl max hi)
        (cs.foldl call t) ∧
      Fits ((t.samples cs).getLast?.or last) (cs.foldl call t)
  | [], t, lo, hi, last, ht, hl => ⟨ht, hl⟩
  | c :: cs, t, lo, hi, last, ht, hl => by
    rcases hs : t.sample c with _ | s
    · obtain ⟨hlearned, ha, hb, hmin, hmax⟩ := call_of_sample_none hs
      simp only [learned, Prod.mk.injEq] at hlearned
      obtain ⟨hest, hdev, hcur⟩ := hlearned
      have ht' : Estimates initial lo hi (t.call c) := by
        refine ⟨ha.trans ht.alpha, hb.trans ht.beta, hmin.trans ht.minTimeout,
          hmax.trans ht.maxTimeout, ?_, ?_, ?_, ?_⟩
        · rw [hdev]; exact ht.dev_nonneg
        · rw [hest]; exact ht.lo_le
        · rw [hest]; exact ht.le_hi
        · rw [hdev]; exact ht.dev_le
      have hl' : Fits last (t.call c) := by
        unfold Fits
        rw [hcur]
        exact hl
      simpa [samples, hs] using bounds_of_calls cs ht' hl'
    · have hu := call_updated hs
      have ih := bounds_of_calls cs (ht.update hu) (fits_update ht hu)
      simpa [samples, hs, List.getLast?_cons] using ih

/-- **The bounds of the adaptive timer**, after any calls by which something has been measured. Here
`lo` and `hi` are the least and the greatest of the initial timeout and the samples. -/
theorem adaptive_bounds (now : Instant) (initial : UInt64) (cs : List Call)
    (hcs : (new now initial : Timer ℚ).samples cs ≠ []) :
    let t : Timer ℚ := cs.foldl call (new now initial)
    let samples := (new now initial : Timer ℚ).samples cs
    let lo : ℚ := (samples.foldl min initial.toNat : ℕ)
    let hi : ℚ := (samples.foldl max initial.toNat : ℕ)
    0 ≤ t.devRtt ∧ (lo ≤ t.estimatedRtt ∧ t.estimatedRtt ≤ hi) ∧
      t.devRtt ≤ max (initial.toNat / 4 : ℚ) (hi - lo) ∧
      t.estimatedRtt + 4 * t.devRtt ≤ hi + max (initial.toNat : ℚ) (4 * (hi - lo)) ∧
      (1500 ≤ t.currentTimeout.toNat ∧ t.currentTimeout.toNat ≤ 30000) ∧
      min (samples.getLast hcs) 30000 ≤ t.currentTimeout.toNat := by
  intro t samples lo hi
  have hfits : Fits none (new now initial : Timer ℚ) := by simp [Fits]
  obtain ⟨he, hf⟩ := bounds_of_calls cs (estimates_new now initial) hfits
  obtain ⟨h1500, h30000, hlast⟩ := hf (samples.getLast hcs) (by
    rw [List.getLast?_eq_some_getLast hcs]
    rfl)
  refine ⟨he.dev_nonneg, ⟨he.lo_le, he.le_hi⟩, he.dev_le, ?_, ⟨h1500, h30000⟩, hlast⟩
  have hfour : 4 * max (initial.toNat / 4 : ℚ) (hi - lo) =
      max (initial.toNat : ℚ) (4 * (hi - lo)) := by
    rw [mul_max_of_nonneg _ _ (by norm_num : (0 : ℚ) ≤ 4), mul_div_cancel₀ _ (by norm_num)]
  rw [← hfour]
  have hdev : t.devRtt ≤ max (initial.toNat / 4 : ℚ) (hi - lo) := he.dev_le
  have hest : t.estimatedRtt ≤ hi := he.le_hi
  linarith

/-- A timer of 1000 ms measures rounds of 100 and 9000 ms. -/
theorem adaptive_bounds_two :
    ((new 0 1000 : Timer ℚ).samples
      [.reset 0, .onRoundComplete 100, .reset 100, .onRoundComplete 9100]).getLast? = some 9000 ∧
    min 9000 30000 ≤ (([.reset 0, .onRoundComplete 100, .reset 100, .onRoundComplete 9100] :
      List Call).foldl call (new 0 1000 : Timer ℚ)).currentTimeout.toNat :=
  ⟨rfl, (adaptive_bounds 0 1000 [.reset 0, .onRoundComplete 100, .reset 100, .onRoundComplete 9100]
    (by decide)).2.2.2.2.2⟩

end Calls

end Timer

end Hotstuff.Consensus.Pacing
