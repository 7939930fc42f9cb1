import Hotstuff.Primitives

/-! # The round timer

`Core` calls three functions of its timer, `start_round`, `on_round_complete` and `reset`; the
implementations of the repository can be exchanged for one another, so the core is stated for any
`RoundTimer`. The adaptive `Timer` is the default one. Its estimates are `f64`; `F64` lists the
operations it uses, and nothing is assumed of them, so that a statement about it holds whatever the
rounding. With the rationals as `F` the timer computes without rounding. -/

namespace Hotstuff.Consensus.Pacing

open Hotstuff.Primitives

/-- What the core calls, with the time of the call. -/
class RoundTimer (T : Type) where
  startRound : Instant → T → T
  onRoundComplete : Instant → T → T
  reset : Instant → T → T

/-- The operations of `f64` that the adaptive timer uses. -/
class F64 (F : Type) extends Add F, Sub F, Mul F, Div F, Max F, Min F where
  abs : F → F
  /-- A literal. -/
  lit : ℚ → F
  /-- `n as f64`. -/
  ofNat : ℕ → F
  /-- `x as u64`. -/
  toU64 : F → UInt64

instance : F64 ℚ where
  abs x := |x|
  lit x := x
  ofNat n := n
  toU64 x := UInt64.ofNat (min ⌊x⌋.toNat (2 ^ 64 - 1))

variable {F : Type} [F64 F]

/-- The adaptive timer: `sleep` is the instant at which it fires. -/
structure Timer (F : Type) where
  estimatedRtt : F
  devRtt : F
  alpha : F
  beta : F
  currentTimeout : UInt64
  minTimeout : UInt64
  maxTimeout : UInt64
  roundStartTime : Option Instant
  sleep : Instant

namespace Timer

def new (now : Instant) (initialTimeout : UInt64) : Timer F where
  estimatedRtt := F64.ofNat initialTimeout.toNat
  devRtt := F64.ofNat initialTimeout.toNat / F64.lit 4
  alpha := F64.lit 0.125
  beta := F64.lit 0.25
  currentTimeout := initialTimeout
  minTimeout := 1500
  maxTimeout := 30000
  roundStartTime := none
  sleep := now + initialTimeout.toNat

def startRound (now : Instant) (t : Timer F) : Timer F := { t with roundStartTime := some now }

/-- The estimates are updated with the time since the start of the round, if one was started. -/
def onRoundComplete (now : Instant) (t : Timer F) : Timer F :=
  match t.roundStartTime with
  | none => t
  | some startTime =>
    let sampleRtt : F := F64.ofNat (now - startTime)
    let error := F64.abs (sampleRtt - t.estimatedRtt)
    let devRtt := (F64.lit 1 - t.beta) * t.devRtt + t.beta * error
    let estimatedRtt := (F64.lit 1 - t.alpha) * t.estimatedRtt + t.alpha * sampleRtt
    let calculatedTimeout := estimatedRtt + F64.lit 4 * devRtt
    { t with
      devRtt := devRtt
      estimatedRtt := estimatedRtt
      currentTimeout := F64.toU64 (min (max calculatedTimeout (F64.ofNat t.minTimeout.toNat))
        (F64.ofNat t.maxTimeout.toNat)) }

def reset (now : Instant) (t : Timer F) : Timer F :=
  { t.startRound now with sleep := now + t.currentTimeout.toNat }

instance : RoundTimer (Timer F) := ⟨startRound, onRoundComplete, reset⟩

/-- What the timer has learned: the two estimates and the timeout computed from them. -/
def learned (t : Timer F) : F × F × UInt64 := (t.estimatedRtt, t.devRtt, t.currentTimeout)

omit [F64 F] in
@[simp] theorem learned_startRound (now : Instant) (t : Timer F) :
    (t.startRound now).learned = t.learned := rfl

omit [F64 F] in
@[simp] theorem learned_reset (now : Instant) (t : Timer F) : (t.reset now).learned = t.learned :=
  rfl

end Timer

end Hotstuff.Consensus.Pacing
