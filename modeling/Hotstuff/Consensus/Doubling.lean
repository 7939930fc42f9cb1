import Hotstuff.Consensus.Backoff

/-! # The delays of a long outage

While no round is completed, `reset` of the exponential timer multiplies the base by a power of two
and only then takes the minimum with the maximum. Both the power and the product are `u64`, so that
they fit for a number of expiries only (`doubles_iff`): after 64 of them at the latest the power is
too large, and without overflow checks the delay becomes `0`. -/

namespace Hotstuff.Consensus.Doubling

open Hotstuff.Primitives Hotstuff.Consensus.Backoff Hotstuff.Lib.Transition

/-! ### Calls during an outage -/

/-- What the core calls as long as no round is completed. -/
inductive Call where
  | startRound (now : Instant)
  | reset (now : Instant)

/-- The current delay has passed since the start of the round. -/
def expired (now : Instant) (t : ExponentialTimer) : Bool :=
  t.roundStartTime.any fun start => t.currentTimeout ≤ ExponentialTimer.elapsedMs now start

/-- Each `reset` is an expiry. -/
def step (t : ExponentialTimer) : Call → Option ExponentialTimer
  | .startRound now => some (t.startRound now)
  | .reset now => if expired now t then some (t.reset now) else none

abbrev Outage := Run fun t c t' => step t c = some t'

/-- The number of expiries. -/
def expiries : List Call → ℕ
  | [] => 0
  | .startRound _ :: es => expiries es
  | .reset _ :: es => expiries es + 1

/-- No timeout has been counted. -/
structure Fresh (b : UInt64) (t : ExponentialTimer) : Prop where
  base : t.baseTimeout = b
  max : t.maxTimeout = 30000
  counter : t.consecutiveTimeouts = 0
  current : t.currentTimeout = b

/-- No operation of the next expiry overflows: the counter is `u32`, the power and the product are
`u64`. -/
structure Exact (t : ExponentialTimer) : Prop where
  counter : t.consecutiveTimeouts.toNat + 1 < 2 ^ 32
  power : 2 ^ (t.consecutiveTimeouts.toNat + 1) < 2 ^ 64
  product : t.baseTimeout.toNat * 2 ^ (t.consecutiveTimeouts.toNat + 1) < 2 ^ 64

/-- The call does not overflow, nor does it decrease the delay. -/
def Sound (t : ExponentialTimer) : Call → Prop
  | .startRound _ => True
  | .reset now => Exact t ∧ t.currentTimeout ≤ (t.reset now).currentTimeout

/-- **The delays double up to the maximum.** -/
structure Doubles (t₀ : ExponentialTimer) (es : List Call) (t : ExponentialTimer) : Prop where
  delay : 1 ≤ expiries es → t.currentTimeout.toNat =
    min (t₀.baseTimeout.toNat * 2 ^ expiries es) 30000
  sound : Every (fun t c t' => step t c = some t') t₀ Sound es

theorem fresh_new (b : UInt64) (now : Instant) : Fresh b (.new now b) := ⟨rfl, rfl, rfl, rfl⟩

@[simp] theorem expiries_append : ∀ es es' : List Call,
    expiries (es ++ es') = expiries es + expiries es'
  | [], es' => (Nat.zero_add _).symm
  | .startRound _ :: es, es' => expiries_append es es'
  | .reset _ :: es, es' => by
    rw [List.cons_append, expiries, expiries, expiries_append es es']
    omega

/-! ### One call -/

section Call

variable {b : UInt64} {n : ℕ} {t t' : ExponentialTimer} {now : Instant}

/-- The timer has counted `n` expiries. -/
structure Counted (b : UInt64) (n : ℕ) (t : ExponentialTimer) : Prop extends Counts b n t where
  exact : t.consecutiveTimeouts.toNat = n

theorem counted_of_fresh (hb : Bounded b) (h : Fresh b t) : Counted b 0 t := by
  have hcounter : t.consecutiveTimeouts.toNat = 0 := by rw [h.counter]; rfl
  have hle := hb.toNat
  refine ⟨⟨h.base, h.max, .inr hcounter, ?_⟩, hcounter⟩
  rw [h.current, hcounter, pow_zero, mul_one]
  omega

theorem counted_startRound (h : Counted b n t) : Counted b n (t.startRound now) :=
  ⟨⟨h.base, h.max, h.counter, h.current⟩, h.exact⟩

/-- The power fits if the product does. -/
theorem exact_iff (hb : Bounded b) (h : Counted b n t) :
    Exact t ↔ b.toNat * 2 ^ (n + 1) < 2 ^ 64 := by
  constructor
  · intro he
    rw [← h.base, ← h.exact]
    exact he.product
  · intro hlt
    have hpow : 2 ^ (n + 1) < 2 ^ 64 :=
      lt_of_le_of_lt (Nat.le_mul_of_pos_left _ hb.toNat.1) hlt
    have hn : n + 1 < 64 := (Nat.pow_lt_pow_iff_right (by omega)).mp hpow
    refine ⟨?_, ?_, ?_⟩
    · rw [h.exact]; omega
    · rwa [h.exact]
    · rwa [h.exact, h.base]

theorem expired_iff : expired now t = true ↔ ∃ start, t.roundStartTime = some start ∧
    t.currentTimeout ≤ ExponentialTimer.elapsedMs now start := by
  rw [expired, Option.any_eq_true]
  simp only [decide_eq_true_eq]

/-- An expiry that does not overflow. -/
theorem counted_reset (hb : Bounded b) (h : Counted b n t) (hx : expired now t = true)
    (hlt : b.toNat * 2 ^ (n + 1) < 2 ^ 64) : Counted b (n + 1) (t.reset now) := by
  obtain ⟨start, hs, hlate⟩ := expired_iff.mp hx
  have hf : Fits b t := by rwa [Fits, h.exact]
  obtain ⟨hc, he⟩ := counts_adjust hb h.toCounts hf hs hlate
  exact ⟨⟨hc.base, hc.max, hc.counter, hc.current⟩, by rw [← h.exact]; exact he⟩

theorem current_mono {m : ℕ} (h : Counted b n t) (h' : Counted b m t') (hnm : n ≤ m) :
    t.currentTimeout ≤ t'.currentTimeout := by
  have hpow : b.toNat * 2 ^ n ≤ b.toNat * 2 ^ m :=
    Nat.mul_le_mul_left _ (Nat.pow_le_pow_right (by omega) hnm)
  rw [UInt64.le_iff_toNat_le, h.current, h'.current, h.exact, h'.exact]
  omega

/-- An expiry does what it should exactly if the product fits. -/
theorem sound_reset_iff (hb : Bounded b) (h : Counted b n t) (hx : expired now t = true) :
    Sound t (.reset now) ↔ b.toNat * 2 ^ (n + 1) < 2 ^ 64 := by
  rw [← exact_iff hb h]
  constructor
  · exact And.left
  · intro he
    have hlt := (exact_iff hb h).mp he
    exact ⟨he, current_mono h (counted_reset hb h hx hlt) (Nat.le_succ n)⟩

end Call

/-! ### Outages -/

theorem reset_of_step {t t' : ExponentialTimer} {now : Instant}
    (h : step t (.reset now) = some t') : expired now t = true ∧ t' = t.reset now := by
  simp only [step] at h
  split_ifs at h with hx
  exact ⟨hx, (Option.some.inj h).symm⟩

section Outage

variable {b : UInt64} {t₀ t : ExponentialTimer} {es : List Call}

/-- All calls do what they should exactly if the last product fits; the expiries are then counted
correctly. -/
theorem sound_iff (hb : Bounded b) (h₀ : Fresh b t₀) (r : Outage t₀ es t) :
    (Every (fun t c t' => step t c = some t') t₀ Sound es ↔
      b.toNat * 2 ^ expiries es < 2 ^ 64) ∧
    (b.toNat * 2 ^ expiries es < 2 ^ 64 → Counted b (expiries es) t) := by
  induction r with
  | nil =>
    have hlt : b.toNat * 2 ^ expiries [] < 2 ^ 64 := by
      rw [expiries, pow_zero, mul_one]
      exact b.toNat_lt
    exact ⟨iff_of_true every_nil hlt, fun _ => counted_of_fresh hb h₀⟩
  | @snoc es s e s' r hs ih =>
    obtain ⟨ih, hcount⟩ := ih
    rw [every_snoc (step_det _) r, ih, expiries_append]
    cases e with
    | startRound now =>
      cases hs
      exact ⟨and_iff_left trivial, fun hlt => counted_startRound (hcount hlt)⟩
    | reset now =>
      obtain ⟨hx, rfl⟩ := reset_of_step hs
      -- the power before the last expiry is smaller
      have hprev : b.toNat * 2 ^ (expiries es + 1) < 2 ^ 64 → b.toNat * 2 ^ expiries es < 2 ^ 64 :=
        lt_of_le_of_lt (Nat.mul_le_mul_left _ (Nat.pow_le_pow_right (by omega) (Nat.le_succ _)))
      refine ⟨⟨fun h => ?_, fun h => ?_⟩, fun h => counted_reset hb (hcount (hprev h)) hx h⟩
      · exact (sound_reset_iff hb (hcount h.1) hx).mp h.2
      · exact ⟨hprev h, (sound_reset_iff hb (hcount (hprev h)) hx).mpr h⟩

/-- **The delays of an outage are those of the back-off, without overflow, exactly if the base times
the power of two of the last expiry fits in a `u64`.** -/
theorem doubles_iff (hb : Bounded b) (h₀ : Fresh b t₀) (r : Outage t₀ es t) :
    Doubles t₀ es t ↔ b.toNat * 2 ^ expiries es < 2 ^ 64 := by
  obtain ⟨hiff, hcount⟩ := sound_iff hb h₀ r
  constructor
  · intro h
    exact hiff.mp h.sound
  · intro h
    refine ⟨fun _ => ?_, hiff.mpr h⟩
    have hc := hcount h
    rw [hc.current, hc.exact, h₀.base]

end Outage

/-! ### An outage of half an hour -/

/-- Each delay passes exactly, the largest one being `30000`. -/
def halfHour : ℕ → List Call
  | 0 => []
  | n + 1 => halfHour n ++ [.reset (30000 * (n + 1)), .startRound (30000 * (n + 1))]

theorem doubles_twice : ∃ t, Outage (.new 0 5000) (halfHour 2) t ∧
    (Doubles (.new 0 5000) (halfHour 2) t ↔ (5000 : UInt64).toNat * 2 ^ 2 < 2 ^ 64) :=
  ⟨_, run_of_exec step (halfHour 2) (.new 0 5000) rfl,
    doubles_iff ⟨by decide, by decide⟩ (fresh_new 5000 0)
      (run_of_exec step (halfHour 2) (.new 0 5000) rfl)⟩

/-- After 61 expiries the product wraps to `0`. -/
theorem delay_wraps : ∃ t, Outage (.new 0 5000) (halfHour 61) t ∧ expiries (halfHour 61) = 61 ∧
    t.currentTimeout = 0 ∧ ¬ Doubles (.new 0 5000) (halfHour 61) t := by
  have hend : (exec step (.new 0 5000) (halfHour 61)).map ExponentialTimer.currentTimeout =
      some 0 := by decide +kernel
  have hn : expiries (halfHour 61) = 61 := by decide +kernel
  obtain ⟨t, ht, h0⟩ := Option.map_eq_some_iff.mp hend
  refine ⟨t, run_of_exec step _ _ ht, hn, h0, fun h => ?_⟩
  have hdelay := h.delay (by omega)
  rw [h0, hn] at hdelay
  exact absurd hdelay (by decide)

end Hotstuff.Consensus.Doubling
