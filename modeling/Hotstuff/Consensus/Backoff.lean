import Hotstuff.Consensus.Advancing
import Hotstuff.Ideal

/-! # The exponential timer inside the core

`timer_exponential.rs` doubles the delay for each consecutive timeout and goes back to the base
after a success. It learns of both indirectly: `process_qc` reports a success for every QC, that of
the node's own timeout included, and `reset` takes a timeout to have happened if the time since the
start of the round has reached the current delay. The delays are those of a back-off strategy as
long as no QC is processed between consecutive timeouts and no round is left after its delay has
passed (`backs_off`). The round of the node's own timeout starts when the timer expires, and may be
left only after the broadcast of the timeout. -/

namespace Hotstuff.Consensus.Backoff

open Hotstuff.Primitives Hotstuff.Consensus.Config Hotstuff.Consensus.Messages
open Hotstuff.Consensus.Aggregation Hotstuff.Consensus.Pacing Hotstuff.Consensus.Handlers
open Hotstuff.Consensus.Steps Hotstuff.Consensus.Advancing Hotstuff.Consensus.Queues
open Hotstuff.Consensus.Wiring Hotstuff.Lib.Transition Hotstuff.Ideal

variable {C : Crypto}

/-! ### The timer -/

/-- The exponential timer: `sleep` is the instant at which it fires. -/
structure ExponentialTimer where
  currentTimeout : UInt64
  baseTimeout : UInt64
  maxTimeout : UInt64
  consecutiveTimeouts : UInt32
  roundStartTime : Option Instant
  sleep : Instant
  /-- The delays that `reset` has armed, oldest first. -/
  armed : List UInt64

namespace ExponentialTimer

def new (now : Instant) (initialTimeout : UInt64) : ExponentialTimer where
  currentTimeout := initialTimeout
  baseTimeout := initialTimeout
  maxTimeout := 30000
  consecutiveTimeouts := 0
  roundStartTime := some now
  sleep := now + initialTimeout.toNat
  armed := []

def startRound (now : Instant) (t : ExponentialTimer) : ExponentialTimer :=
  { t with roundStartTime := some now }

def onRoundComplete (t : ExponentialTimer) : ExponentialTimer :=
  { t with consecutiveTimeouts := 0, currentTimeout := t.baseTimeout }

/-- `start_time.elapsed().as_millis() as u64`. -/
def elapsedMs (now start : Instant) : UInt64 := UInt64.ofNat (now - start)

/-- The base times `2_u64.pow(n)`, in wrapping arithmetic, up to the maximum. -/
def backoff (t : ExponentialTimer) (n : UInt32) : UInt64 :=
  min (t.baseTimeout * UInt64.ofNat (2 ^ n.toNat)) t.maxTimeout

/-- The current delay is doubled if the previous round seems to have timed out. -/
def adjust (now : Instant) (t : ExponentialTimer) : ExponentialTimer :=
  match t.roundStartTime with
  | none => t
  | some start =>
    if t.currentTimeout ≤ elapsedMs now start then
      { t with
        consecutiveTimeouts := t.consecutiveTimeouts + 1
        currentTimeout := t.backoff (t.consecutiveTimeouts + 1) }
    else t

def reset (now : Instant) (t : ExponentialTimer) : ExponentialTimer :=
  let t := t.adjust now
  { t with sleep := now + t.currentTimeout.toNat, armed := t.armed ++ [t.currentTimeout] }

instance : RoundTimer ExponentialTimer := ⟨startRound, fun _ => onRoundComplete, reset⟩

end ExponentialTimer

/-! ### The strategy -/

/-- Why `reset` is called. -/
inductive Cause where
  | boot
  /-- The n-th local timeout since a QC completed a round. -/
  | timeout (n : ℕ)
  /-- A QC completes the round. -/
  | completion
  /-- A TC ends the round. -/
  | tc

/-- What the trace says about the calls of `reset`. -/
structure History where
  /-- The local timeouts since a QC completed a round. -/
  timeouts : ℕ
  /-- The local timeouts since a QC was processed. -/
  uncleared : ℕ
  /-- The last QC processed completes the round. -/
  completing : Bool
  causes : List Cause

def History.next (p : History) : Action C → History
  | .processQc qc round =>
    if round ≤ qc.round then { p with timeouts := 0, uncleared := 0, completing := true }
    else { p with uncleared := 0 }
  | .moved _ =>
    { p with
      completing := false
      causes := p.causes ++ [if p.completing then .completion else .tc] }
  | .timeout _ =>
    { p with
      timeouts := p.timeouts + 1
      uncleared := p.uncleared + 1
      causes := p.causes ++ [.timeout (p.timeouts + 1)] }
  | _ => p

def history (l : List (Action C)) : History := l.foldl History.next ⟨0, 0, false, [.boot]⟩

/-- The delay that the strategy arms: doubled for each consecutive timeout, the base after a
success. -/
def Lawful (b : ℕ) : Cause → UInt64 → Prop
  | .timeout n, d => d.toNat = min (b * 2 ^ n) 30000
  | .completion, d => d.toNat = b
  | _, _ => True

/-- **The timer follows the strategy** at every call of `reset` so far. -/
def BacksOff (b : ℕ) (s : Core C ExponentialTimer) : Prop :=
  List.Forall₂ (Lawful b) (history s.trace).causes s.timer.armed

/-! ### Numbers -/

section Numbers

variable {t : ExponentialTimer}

theorem toNat_min (a b : UInt64) : (min a b).toNat = min a.toNat b.toNat := by
  show (if a ≤ b then a else b).toNat = _
  have h := UInt64.le_iff_toNat_le (a := a) (b := b)
  split_ifs with hab
  · rw [min_eq_left (h.mp hab)]
  · rw [min_eq_right (by rw [h] at hab; omega)]

/-- Without overflow the product is that of the numbers. -/
theorem toNat_backoff {n : UInt32} (hmax : t.maxTimeout = 30000)
    (h : t.baseTimeout.toNat * 2 ^ n.toNat < 2 ^ 64) :
    (t.backoff n).toNat = min (t.baseTimeout.toNat * 2 ^ n.toNat) 30000 := by
  have hmul : (t.baseTimeout * UInt64.ofNat (2 ^ n.toNat)).toNat =
      t.baseTimeout.toNat * 2 ^ n.toNat := by
    rw [UInt64.toNat_mul, UInt64.toNat_ofNat', Nat.mul_mod_mod, Nat.mod_eq_of_lt h]
  rw [ExponentialTimer.backoff, toNat_min, hmul, hmax]
  rfl

/-- A counter whose power of two fits does not overflow. -/
theorem toNat_succ {n : UInt32} {b : ℕ} (hb : 0 < b) (h : b * 2 ^ (n.toNat + 1) < 2 ^ 64) :
    (n + 1).toNat = n.toNat + 1 := by
  have hpow : 2 ^ (n.toNat + 1) < 2 ^ 64 := lt_of_le_of_lt (Nat.le_mul_of_pos_left _ hb) h
  have hlt : n.toNat + 1 < 64 := (Nat.pow_lt_pow_iff_right (by omega)).mp hpow
  rw [UInt32.toNat_add]
  exact Nat.mod_eq_of_lt (by rw [show (1 : UInt32).toNat = 1 from rfl]; omega)

end Numbers

/-! ### The state of the timer -/

/-- The base is within the bounds. -/
structure Bounded (b : UInt64) : Prop where
  pos : 1 ≤ b
  le_max : b ≤ 30000

/-- The timer after `n` consecutive timeouts, with the base `b`. -/
structure Counts (b : UInt64) (n : ℕ) (t : ExponentialTimer) : Prop where
  base : t.baseTimeout = b
  max : t.maxTimeout = 30000
  counter : b = 30000 ∨ t.consecutiveTimeouts.toNat = n
  current : t.currentTimeout.toNat = min (b.toNat * 2 ^ t.consecutiveTimeouts.toNat) 30000

/-- The timer was armed with the current delay, or a longer one, at the start of the round. -/
def Running (t : ExponentialTimer) : Prop :=
  ∃ start, t.roundStartTime = some start ∧ start + t.currentTimeout.toNat ≤ t.sleep

/-- One more timeout can be counted. -/
def Fits (b : UInt64) (t : ExponentialTimer) : Prop :=
  b.toNat * 2 ^ (t.consecutiveTimeouts.toNat + 1) < 2 ^ 64

/-- The delay `limit` has not passed since the start of the round. -/
def Within (limit : UInt64) (now : Instant) (t : ExponentialTimer) : Prop :=
  ∀ start, t.roundStartTime = some start → ExponentialTimer.elapsedMs now start < limit

/-- The timer after `reset` and `start_round`. -/
def restart (now : Instant) (t : ExponentialTimer) : ExponentialTimer :=
  (t.reset now).startRound now

section Counts

variable {b : UInt64} {n : ℕ} {t : ExponentialTimer} {now : Instant}

theorem Bounded.toNat (hb : Bounded b) : 1 ≤ b.toNat ∧ b.toNat ≤ 30000 :=
  ⟨UInt64.le_iff_toNat_le.mp hb.pos, UInt64.le_iff_toNat_le.mp hb.le_max⟩

theorem Counts.le_current (hb : Bounded b) (h : Counts b n t) : b ≤ t.currentTimeout := by
  have hpow : b.toNat ≤ b.toNat * 2 ^ t.consecutiveTimeouts.toNat :=
    Nat.le_mul_of_pos_right _ (Nat.two_pow_pos _)
  have := hb.toNat
  rw [UInt64.le_iff_toNat_le, h.current]
  omega

/-- With the largest base the delay is always the same. -/
theorem Counts.current_of_max (hb : b = 30000) (h : Counts b n t) :
    t.currentTimeout.toNat = 30000 := by
  have hpow : 0 < 2 ^ t.consecutiveTimeouts.toNat := Nat.two_pow_pos _
  rw [h.current, hb, show (30000 : UInt64).toNat = 30000 from rfl]
  omega

theorem counts_onRoundComplete (hb : Bounded b) (h : Counts b n t) :
    Counts b 0 t.onRoundComplete := by
  refine ⟨h.base, h.max, .inr rfl, ?_⟩
  have := hb.toNat
  rw [show t.onRoundComplete.currentTimeout = b from h.base,
    show t.onRoundComplete.consecutiveTimeouts.toNat = 0 from rfl, pow_zero, mul_one]
  omega

theorem running_onRoundComplete (hb : Bounded b) (h : Counts b n t) (hr : Running t) :
    Running t.onRoundComplete := by
  have hle := h.le_current hb
  obtain ⟨start, hs, hsleep⟩ := hr
  rw [UInt64.le_iff_toNat_le] at hle
  refine ⟨start, hs, ?_⟩
  show start + t.baseTimeout.toNat ≤ t.sleep
  rw [h.base]
  exact le_trans (Nat.add_le_add_left hle start) hsleep

/-- In time, the delay stays as it is. -/
theorem adjust_of_within (h : Within t.currentTimeout now t) : t.adjust now = t := by
  unfold ExponentialTimer.adjust
  split
  · rfl
  · rename_i start hs
    exact if_neg (by grind [h start hs])

/-- Too late, it is doubled. -/
theorem counts_adjust {start : Instant} (hb : Bounded b) (h : Counts b n t) (hf : Fits b t)
    (hs : t.roundStartTime = some start)
    (hlate : t.currentTimeout ≤ ExponentialTimer.elapsedMs now start) :
    Counts b (n + 1) (t.adjust now) ∧
      (t.adjust now).consecutiveTimeouts.toNat = t.consecutiveTimeouts.toNat + 1 := by
  have hadj : t.adjust now = { t with
      consecutiveTimeouts := t.consecutiveTimeouts + 1
      currentTimeout := t.backoff (t.consecutiveTimeouts + 1) } := by
    unfold ExponentialTimer.adjust
    simp only [hs, if_pos hlate]
  have hsucc := toNat_succ hb.toNat.1 hf
  rw [hadj]
  refine ⟨⟨h.base, h.max, h.counter.imp_right fun hc => ?_, ?_⟩, hsucc⟩
  · show (t.consecutiveTimeouts + 1).toNat = n + 1
    rw [hsucc, hc]
  · show (t.backoff (t.consecutiveTimeouts + 1)).toNat =
      min (b.toNat * 2 ^ (t.consecutiveTimeouts + 1).toNat) 30000
    rw [toNat_backoff h.max, h.base]
    rw [h.base, hsucc]
    exact hf

theorem counts_restart (h : Counts b n (t.adjust now)) : Counts b n (restart now t) :=
  ⟨h.base, h.max, h.counter, h.current⟩

theorem restart_armed :
    (restart now t).armed = t.armed ++ [(t.adjust now).currentTimeout] := by
  have hadj : (t.adjust now).armed = t.armed := by
    unfold ExponentialTimer.adjust
    split
    · rfl
    · split_ifs <;> rfl
  rw [← hadj]
  rfl

theorem running_restart : Running (restart now t) := ⟨now, rfl, Nat.le_refl _⟩

theorem within_restart {limit : UInt64} (h : 0 < limit) : Within limit now (restart now t) := by
  intro start hs
  cases hs
  rw [ExponentialTimer.elapsedMs, Nat.sub_self]
  exact h

/-- The round is left in time; or it does not matter, the delay being the same after any number of
timeouts. -/
def InTime (b limit : UInt64) (now : Instant) (t : ExponentialTimer) : Prop :=
  Within limit now t ∨ (b = 30000 ∧ Fits b t)

/-- **A new round that is begun in time** counts no timeout, and has the same delay. -/
theorem counts_inTime (hb : Bounded b) (h : Counts b n t)
    (ht : InTime b t.currentTimeout now t) :
    Counts b n (restart now t) ∧ (t.adjust now).currentTimeout.toNat = t.currentTimeout.toNat := by
  rcases ht with ht | ⟨hmax, hf⟩
  · have hadj := adjust_of_within ht
    exact ⟨counts_restart (by rwa [hadj]), by rw [hadj]⟩
  · by_cases hlate : Within t.currentTimeout now t
    · have hadj := adjust_of_within hlate
      exact ⟨counts_restart (by rwa [hadj]), by rw [hadj]⟩
    · unfold Within at hlate
      push Not at hlate
      obtain ⟨start, hs, hle⟩ := hlate
      have hadj := (counts_adjust hb h hf hs (UInt64.not_lt.mp hle)).1
      refine ⟨counts_restart ⟨hadj.base, hadj.max, .inl hmax, hadj.current⟩, ?_⟩
      rw [hadj.current_of_max hmax, h.current_of_max hmax]

end Counts

/-! ### The core -/

section Core

variable {b : UInt64} {s s' : Core C ExponentialTimer} {io : Io C}

theorem history_append (l l' : List (Action C)) :
    history (l ++ l') = l'.foldl History.next (history l) :=
  List.foldl_append

theorem foldl_next_calm {p : History} : ∀ {l : List (Action C)},
    (∀ a ∈ l, isPacing a = false) → l.foldl History.next p = p
  | [], _ => rfl
  | a :: l, h => by
    have ha := h a List.mem_cons_self
    have hnext : p.next a = p := by cases a <;> first | rfl | cases ha
    rw [List.foldl_cons, hnext]
    exact foldl_next_calm fun x hx => h x (List.mem_cons_of_mem _ hx)

theorem history_calm (h : Calm s s') : history s'.trace = history s.trace := by
  obtain ⟨l, hl, hc⟩ := h.trace
  rw [hl, history_append, foldl_next_calm hc]

/-- The invariant between two calls. -/
structure Ok (b : UInt64) (s : Core C ExponentialTimer) : Prop where
  counts : Counts b (history s.trace).uncleared s.timer
  running : Running s.timer
  idle : (history s.trace).completing = false
  lawful : BacksOff b.toNat s

theorem ok_of_eq (ht : s'.timer = s.timer) (hh : history s'.trace = history s.trace)
    (h : Ok b s) : Ok b s' := by
  refine ⟨?_, ?_, ?_, ?_⟩
  · rw [ht, hh]; exact h.counts
  · rw [ht]; exact h.running
  · rw [hh]; exact h.idle
  · unfold BacksOff
    rw [ht, hh]
    exact h.lawful

/-- A call of `reset`: one more cause, and one more delay. -/
theorem backsOff_restart {p : History} {l : List UInt64} {t : ExponentialTimer} {now : Instant}
    {c : Cause} (h : List.Forall₂ (Lawful b.toNat) p.causes t.armed)
    (hl : l = (restart now t).armed) (hc : Lawful b.toNat c (t.adjust now).currentTimeout) :
    List.Forall₂ (Lawful b.toNat) (p.causes ++ [c]) l := by
  rw [hl, restart_armed]
  exact List.rel_append h (.cons hc .nil)

variable (io) in
theorem advanceRound_restart {r : Round} (hr : ¬ r < s.round) :
    (advanceRound io s r).timer = restart io.now s.timer := by
  unfold advanceRound
  rw [if_neg hr]
  rfl

theorem ok_advanceRound (hb : Bounded b) (h : Ok b s) {r : Round}
    (ht : ¬ r < s.round → InTime b s.timer.currentTimeout io.now s.timer) :
    Ok b (advanceRound io s r) := by
  by_cases hr : r < s.round
  · rwa [advanceRound_of_lt s io hr]
  have htimer := advanceRound_restart io hr
  have hhist : history (advanceRound io s r).trace = (history s.trace).next
      (.moved (r + 1) : Action C) := by
    rw [advanceRound_trace, if_neg hr, history_append]
    rfl
  refine ⟨?_, ?_, ?_, ?_⟩
  · rw [htimer, hhist]
    exact (counts_inTime hb h.counts (ht hr)).1
  · rw [htimer]
    exact running_restart
  · rw [hhist]
    rfl
  · unfold BacksOff
    rw [htimer, hhist]
    refine backsOff_restart h.lawful rfl ?_
    rw [h.idle]
    trivial

variable (s io) in
/-- The timer after `process_qc`. -/
theorem processQc_timer (qc : QC C) : (processQc io s qc).timer =
    if qc.round < s.round then s.timer.onRoundComplete
    else restart io.now s.timer.onRoundComplete := by
  unfold processQc
  rw [updateHighQc_timer]
  split_ifs with hr
  · exact congrArg Core.timer (if_pos hr)
  · exact advanceRound_restart io hr

theorem ok_processQc (hb : Bounded b) (h : Ok b s) {qc : QC C}
    (ht : ¬ qc.round < s.round → InTime b b io.now s.timer) : Ok b (processQc io s qc) := by
  have hcounts := counts_onRoundComplete hb h.counts
  have htimer := processQc_timer s io qc
  have htr := processQc_trace s io qc
  unfold qcTrace at htr
  by_cases hr : qc.round < s.round
  · rw [if_pos hr] at htimer htr
    have hhist : history (processQc io s qc).trace = { history s.trace with uncleared := 0 } := by
      rw [htr, history_append]
      exact if_neg (by grind)
    refine ⟨?_, ?_, ?_, ?_⟩
    · rw [htimer, hhist]
      exact hcounts
    · rw [htimer]
      exact running_onRoundComplete hb h.counts h.running
    · rw [hhist]
      exact h.idle
    · unfold BacksOff
      rw [htimer, hhist]
      exact h.lawful
  · rw [if_neg hr] at htimer htr
    have hhist : history (processQc io s qc).trace =
        ⟨0, 0, false, (history s.trace).causes ++ [.completion]⟩ := by
      have hle : s.round ≤ qc.round := by grind
      rw [htr, history_append]
      simp only [List.foldl_cons, List.foldl_nil, History.next, if_pos hle, if_true]
    have hcur : s.timer.onRoundComplete.currentTimeout = b := h.counts.base
    have hin : InTime b s.timer.onRoundComplete.currentTimeout io.now s.timer.onRoundComplete := by
      rw [hcur]
      rcases ht hr with hw | ⟨hmax, -⟩
      · exact .inl hw
      · refine .inr ⟨hmax, ?_⟩
        rw [Fits, hmax, show s.timer.onRoundComplete.consecutiveTimeouts.toNat = 0 from rfl]
        decide
    obtain ⟨hc, hd⟩ := counts_inTime hb hcounts hin
    refine ⟨?_, ?_, ?_, ?_⟩
    · rw [htimer, hhist]
      exact hc
    · rw [htimer]
      exact running_restart
    · rw [hhist]
    · unfold BacksOff
      rw [htimer, hhist]
      refine backsOff_restart (t := s.timer.onRoundComplete) h.lawful rfl ?_
      show (ExponentialTimer.adjust io.now s.timer.onRoundComplete).currentTimeout.toNat = _
      rw [hd, hcur]

/-! ### The calls of an event -/

theorem InTime.mono {t : ExponentialTimer} {now : Instant} (hb : Bounded b) {n : ℕ}
    (hc : Counts b n t) (h : InTime b b now t) : InTime b t.currentTimeout now t := by
  have hle := hc.le_current hb
  exact h.imp_left fun hw start hs => by grind [hw start hs]

theorem inTime_restart {t : ExponentialTimer} {now : Instant} (hb : Bounded b) :
    InTime b b now (restart now t) :=
  .inl (within_restart (by grind [hb.pos]))

theorem inTime_advanceRound (hb : Bounded b) {r : Round} (h : InTime b b io.now s.timer) :
    InTime b b io.now (advanceRound io s r).timer := by
  by_cases hr : r < s.round
  · rwa [advanceRound_of_lt s io hr]
  · rw [advanceRound_restart io hr]
    exact inTime_restart hb

theorem inTime_processQc (hb : Bounded b) {qc : QC C} (h : InTime b b io.now s.timer) :
    InTime b b io.now (processQc io s qc).timer := by
  rw [processQc_timer]
  split_ifs
  · rcases h with hw | ⟨hmax, -⟩
    · exact .inl hw
    · refine .inr ⟨hmax, ?_⟩
      rw [Fits, hmax, show s.timer.onRoundComplete.consecutiveTimeouts.toNat = 0 from rfl]
      decide
  · exact inTime_restart hb

theorem Pace.trace (h : Pace io s s') : ∃ l, s'.trace = s.trace ++ l := by
  cases h with
  | calm h => exact h.trace.imp fun _ h => h.1
  | processQc qc => exact ⟨_, processQc_trace _ _ _⟩
  | advanceRound r => exact ⟨_, advanceRound_trace _ _ _⟩
  | generateProposal tc => exact ⟨_, rfl⟩

theorem Paces.trace (h : Paces io s s') : ∃ l, s'.trace = s.trace ++ l := by
  induction h with
  | refl => exact ⟨[], by simp⟩
  | tail _ h ih =>
    obtain ⟨l, hl⟩ := ih
    obtain ⟨l', hl'⟩ := Pace.trace h
    exact ⟨l ++ l', by rw [hl', hl, List.append_assoc]⟩

/-- The round is advanced between `s` and `s'`. -/
def Moves (s s' : Core C ExponentialTimer) : Prop :=
  ∃ l r, s'.trace = s.trace ++ l ∧ .moved r ∈ l

theorem Moves.left {s'' : Core C ExponentialTimer} (h : Moves s s')
    (h' : ∃ l, s''.trace = s'.trace ++ l) : Moves s s'' := by
  obtain ⟨l, r, hl, hm⟩ := h
  obtain ⟨l', hl'⟩ := h'
  exact ⟨l ++ l', r, by rw [hl', hl, List.append_assoc], List.mem_append_left _ hm⟩

theorem Moves.right {s'' : Core C ExponentialTimer} (h : ∃ l, s'.trace = s.trace ++ l)
    (h' : Moves s' s'') : Moves s s'' := by
  obtain ⟨l, hl⟩ := h
  obtain ⟨l', r, hl', hm⟩ := h'
  exact ⟨l ++ l', r, by rw [hl', hl, List.append_assoc], List.mem_append_right _ hm⟩

/-- **One call**, in time if it advances the round. -/
theorem ok_pace (hb : Bounded b) (h : Ok b s) (hp : Pace io s s')
    (ht : Moves s s' → InTime b b io.now s.timer) :
    Ok b s' ∧ (InTime b b io.now s.timer → InTime b b io.now s'.timer) := by
  cases hp with
  | calm hc => exact ⟨ok_of_eq hc.timer (history_calm hc) h, fun h => by rwa [hc.timer]⟩
  | processQc qc =>
    refine ⟨ok_processQc hb h fun hr => ht ⟨_, qc.round + 1, processQc_trace _ _ _, ?_⟩,
      inTime_processQc hb⟩
    exact mem_qcTrace_iff.mpr (.inr ⟨hr, rfl⟩)
  | advanceRound r =>
    refine ⟨ok_advanceRound hb h fun hr => .mono hb h.counts (ht ⟨_, r + 1,
      advanceRound_trace _ _ _, ?_⟩), inTime_advanceRound hb⟩
    exact mem_moved.mpr ⟨hr, rfl⟩
  | generateProposal tc =>
    have hhist : history (generateProposal s tc).trace = history s.trace := by
      rw [generateProposal, emit_trace, history_append]
      rfl
    exact ⟨ok_of_eq (s := s) rfl hhist h, id⟩

theorem ok_paces (hb : Bounded b) (h : Ok b s) (hp : Paces io s s')
    (ht : Moves s s' → InTime b b io.now s.timer) : Ok b s' := by
  induction hp using Relation.ReflTransGen.head_induction_on with
  | refl => exact h
  | @head s s₁ hp hps ih =>
    obtain ⟨h₁, hin⟩ := ok_pace hb h hp fun hm => ht (hm.left (Paces.trace hps))
    exact ih h₁ fun hm => hin (ht (hm.right (Pace.trace hp)))

/-! ### Events -/

theorem history_le (l : List (Action C)) : (history l).uncleared ≤ (history l).timeouts := by
  induction l using List.reverseRecOn with
  | nil => exact Nat.le_refl _
  | append_singleton l a ih =>
    rw [history_append, List.foldl_cons, List.foldl_nil]
    cases a with
    | processQc qc r =>
      simp only [History.next]
      split_ifs
      · exact Nat.le_refl _
      · exact Nat.zero_le _
    | timeout t => exact Nat.succ_le_succ ih
    | _ => exact ih

/-- The condition on the expiry of the timer. -/
structure Expires (b : UInt64) (now : Instant) (s : Core C ExponentialTimer) : Prop where
  fits : Fits b s.timer
  clock : ∀ start, s.timer.roundStartTime = some start → now - start < 2 ^ 64
  /-- No QC has been processed since the first of the consecutive timeouts, unless the delay is the
  largest anyway. -/
  uncleared : (history s.trace).uncleared = (history s.trace).timeouts ∨
    30000 ≤ b.toNat * 2 ^ ((history s.trace).uncleared + 1)

variable (env : Env C)

/-- The local timeout, up to the handling of the node's own message. -/
theorem ok_timeout (hb : Bounded b) (h : Ok b s) (hfire : s.timer.sleep ≤ io.now)
    (he : Expires b io.now s) :
    Ok b (Core.emit { increaseLastVotedRound s s.round with
      timer := RoundTimer.startRound io.now (RoundTimer.reset io.now s.timer) }
        (.timeout (Timeout.new s.highQc s.round env.name))) := by
  obtain ⟨start, hs, hsleep⟩ := h.running
  have hlate : s.timer.currentTimeout ≤ ExponentialTimer.elapsedMs io.now start := by
    rw [UInt64.le_iff_toNat_le, ExponentialTimer.elapsedMs, UInt64.toNat_ofNat',
      Nat.mod_eq_of_lt (he.clock start hs)]
    exact Nat.le_sub_of_add_le (by rw [Nat.add_comm]; exact le_trans hsleep hfire)
  obtain ⟨hadj, hcount⟩ := counts_adjust hb h.counts he.fits hs hlate
  have hhist : history (s.trace ++ [Action.timeout (Timeout.new s.highQc s.round env.name)]) =
      (history s.trace).next (.timeout (Timeout.new s.highQc s.round env.name) : Action C) := by
    rw [history_append]
    rfl
  refine ⟨?_, running_restart, ?_, ?_⟩
  · rw [emit_trace, increaseLastVotedRound, hhist]
    exact counts_restart hadj
  · rw [emit_trace, increaseLastVotedRound, hhist]
    exact h.idle
  · unfold BacksOff
    rw [emit_trace, increaseLastVotedRound, hhist]
    refine backsOff_restart (t := s.timer) h.lawful rfl ?_
    show (ExponentialTimer.adjust io.now s.timer).currentTimeout.toNat =
      min (b.toNat * 2 ^ ((history s.trace).timeouts + 1)) 30000
    rcases h.counts.counter with hmax | hc
    · have hpow : 0 < 2 ^ ((history s.trace).timeouts + 1) := Nat.two_pow_pos _
      rw [hadj.current_of_max hmax, hmax, show (30000 : UInt64).toNat = 30000 from rfl]
      omega
    · rw [hadj.current, hcount, hc]
      rcases he.uncleared with heq | hge
      · rw [heq]
      · have hle : b.toNat * 2 ^ ((history s.trace).uncleared + 1) ≤
            b.toNat * 2 ^ ((history s.trace).timeouts + 1) :=
          Nat.mul_le_mul_left _ (Nat.pow_le_pow_right (by omega)
            (Nat.succ_le_succ (history_le s.trace)))
        omega

/-- The round that `local_timeout_round` restarts before its broadcast is left in time, if it is
left when the node handles its own message. -/
theorem ok_localTimeoutRound (hb : Bounded b) (h : Ok b s) (hfire : s.timer.sleep ≤ io.now)
    (he : Expires b io.now s)
    (ht : Moves s (localTimeoutRound env io s).1 →
      InTime b b io.later (restart io.now s.timer)) : Ok b (localTimeoutRound env io s).1 := by
  have htrace : ∃ l, (Core.emit { increaseLastVotedRound s s.round with
      timer := RoundTimer.startRound io.now (RoundTimer.reset io.now s.timer) }
        (.timeout (Timeout.new s.highQc s.round env.name))).trace = s.trace ++ l := ⟨_, rfl⟩
  exact ok_paces hb (ok_timeout env hb h hfire he)
    (handleTimeout_paces _ env { io with now := io.later } _) fun hm => ht (hm.right htrace)

theorem ok_handleTc (hb : Bounded b) (h : Ok b s) (tc : TC C)
    (ht : Moves s (handleTc env io s tc).1 → InTime b s.timer.currentTimeout io.now s.timer) :
    Ok b (handleTc env io s tc).1 := by
  rcases handleTc_paces s env io tc with heq | ⟨hr, hp⟩
  · rwa [heq]
  have hok : Ok b (advanceRound io s tc.round) := ok_advanceRound hb h fun _ =>
    ht (.left ⟨_, tc.round + 1, advanceRound_trace _ _ _, mem_moved.mpr ⟨hr, rfl⟩⟩ (Paces.trace hp))
  refine ok_paces hb hok hp fun _ => ?_
  rw [advanceRound_restart io hr]
  exact inTime_restart hb

end Core

/-! ### Runs -/

section Runs

variable {env : Env C} {b : UInt64} {n n' : Node C ExponentialTimer} {e : Event C}

/-- The event advances the round. -/
def Advances (env : Env C) (n : Node C ExponentialTimer) (e : Event C) : Prop :=
  ∃ n' r, n.step env e = some n' ∧ .moved r ∈ newEntries n n'.core

/-- **The condition on an event.** The timer expires only as in `Expires`. A QC advances the round
before the base delay has passed since the start of the round, and a TC before the current delay
has. The node's own timeout, which it handles after the broadcast, advances the round before the
base delay has passed since the timer expired. -/
def Regular (env : Env C) (b : UInt64) (n : Node C ExponentialTimer) : Event C → Prop
  | .timeout io => Expires b io.now n.core ∧
      (Advances env n (.timeout io) → InTime b b io.later (restart io.now n.core.timer))
  | .message (.tc tc) io => Advances env n (.message (.tc tc) io) →
      InTime b n.core.timer.currentTimeout io.now n.core.timer
  | .message m io => Advances env n (.message m io) → InTime b b io.now n.core.timer
  | .loopback io => Advances env n (.loopback io) → InTime b b io.now n.core.timer
  | _ => True

/-- One event; the timer expires only when its time has come. -/
def Fires (env : Env C) (n : Node C ExponentialTimer) (e : Event C)
    (n' : Node C ExponentialTimer) : Prop :=
  n.step env e = some n' ∧ ∀ io, e = .timeout io → n.core.timer.sleep ≤ io.now

theorem fires_det (n : Node C ExponentialTimer) (e : Event C) (n₁ n₂ : Node C ExponentialTimer)
    (h₁ : Fires env n e n₁) (h₂ : Fires env n e n₂) : n₁ = n₂ :=
  Option.some.inj (h₁.1.symm.trans h₂.1)

theorem advances_of_moves {s : Core C ExponentialTimer} (h : n.step env e = some n')
    (hs : n'.core = s) (hm : Moves n.core s) : Advances env n e := by
  obtain ⟨l, r, hl, hm⟩ := hm
  refine ⟨n', r, h, ?_⟩
  rw [newEntries, hs, hl, List.drop_left]
  exact hm

theorem ok_step (hb : Bounded b) (hn : Queues.Ok env n) (h : Fires env n e n')
    (hr : Regular env b n e) (hok : Ok b n.core) : Ok b n'.core := by
  obtain ⟨h, hfire⟩ := h
  rcases hc : e.isCore with _ | _
  · rcases task_step_cases hn hc h with hf | ⟨x, -, rfl⟩
    · rwa [hf.core]
    · exact ⟨hok.counts, hok.running, hok.idle, hok.lawful⟩
  cases e with
  | message m io =>
    have h₀ := h
    obtain ⟨-, rfl⟩ := step_message h
    rw [call_core]
    cases m with
    | propose block =>
      exact ok_paces hb hok (handleProposal_paces _ env io block) fun hm =>
        hr (advances_of_moves h₀ (call_core _ _) hm)
    | vote v =>
      exact ok_paces hb hok (handleVote_paces _ env io v) fun hm =>
        hr (advances_of_moves h₀ (call_core _ _) hm)
    | timeout t =>
      exact ok_paces hb hok (handleTimeout_paces _ env io t) fun hm =>
        hr (advances_of_moves h₀ (call_core _ _) hm)
    | tc tc =>
      exact ok_handleTc env hb hok tc fun hm => hr (advances_of_moves h₀ (call_core _ _) hm)
  | loopback io =>
    have h₀ := h
    obtain ⟨-, block, blocks, -, rfl⟩ := step_loopback h
    rw [call_core]
    exact ok_paces hb hok (processBlock_paces _ env io block) fun hm =>
      hr (advances_of_moves h₀ (call_core _ _) hm)
  | timeout io =>
    have h₀ := h
    obtain ⟨-, rfl⟩ := step_timeout h
    rw [call_core]
    exact ok_localTimeoutRound env hb hok (hfire io rfl) hr.1 fun hm =>
      hr.2 (advances_of_moves h₀ (call_core _ _) hm)
  | _ => simp [Event.isCore] at hc

theorem ok_boot {io : Io C} {start : Instant} (hb : Bounded b)
    (ht : InTime b b io.now (ExponentialTimer.new start b)) :
    Ok b (Node.boot env io (ExponentialTimer.new start b)).core := by
  have hcounts : Counts b 0 (ExponentialTimer.new start b) := by
    refine ⟨rfl, rfl, .inr rfl, ?_⟩
    have := hb.toNat
    show b.toNat = min (b.toNat * 2 ^ 0) 30000
    omega
  have hok : ∀ s : Core C ExponentialTimer, s.trace = [] →
      s.timer = restart io.now (ExponentialTimer.new start b) → Ok b s := by
    intro s htr htimer
    refine ⟨?_, ?_, ?_, ?_⟩
    · rw [htr, htimer]
      exact (counts_inTime hb hcounts ht).1
    · rw [htimer]
      exact running_restart
    · rw [htr]
      rfl
    · unfold BacksOff
      rw [htr, htimer]
      exact backsOff_restart (p := ⟨0, 0, false, []⟩) (c := .boot) .nil rfl trivial
  refine ok_paces hb (hok _ ?_ ?_) (propose_paces _ env io none) fun _ => ?_
  · rfl
  · rfl
  · exact inTime_restart hb

/-- **When the timer follows the strategy**: in every run in which it is booted in time and every
event meets the condition. -/
theorem backs_off {io : Io C} {start : Instant} {es : List (Event C)} (hb : 1 ≤ b ∧ b ≤ 30000)
    (ht : InTime b b io.now (ExponentialTimer.new start b))
    (r : Run (Fires env) (Node.boot env io (ExponentialTimer.new start b)) es n)
    (hr : Every (Fires env) (Node.boot env io (ExponentialTimer.new start b)) (Regular env b) es) :
    BacksOff b.toNat n.core := by
  have hb' : Bounded b := ⟨hb.1, hb.2⟩
  have hinv : Queues.Ok env n ∧ Ok b n.core := by
    induction r with
    | nil => exact ⟨boot_ok io _, ok_boot hb' ht⟩
    | snoc r h ih =>
      rw [every_snoc fires_det r] at hr
      obtain ⟨hn, hok⟩ := ih hr.1
      exact ⟨step_ok hn h.1, ok_step hb' hn h hr.2 hok⟩
  exact hinv.2.lawful

end Runs

/-! ### Two timeouts in a row -/

/-- A node of four, booted at time 0. -/
def firstStart : Node crypto ExponentialTimer := Node.boot (four 0) calm (.new 0 1000)

/-- Time passes while the node broadcasts its timeout. -/
def expired (now later : Instant) : Event crypto := .timeout { calm with now, later }

/-- **The delay does not grow**: the second timeout in a row arms the same delay as the first one,
after which the node has processed the QC of its own message. -/
theorem exists_flat : ¬ ∀ (es : List (Event crypto)) (n : Node crypto ExponentialTimer),
    Run (Fires (four 0)) firstStart es n → BacksOff 1000 n.core := by
  intro h
  have hrun : Run (Fires (four 0)) firstStart [expired 1000 1150, expired 3000 3150] _ :=
    .cons ⟨rfl, fun io hio => by cases hio; decide⟩
      (.cons ⟨rfl, fun io hio => by cases hio; decide⟩ .nil)
  rcases h _ _ hrun with _ | ⟨-, _ | ⟨-, _ | ⟨hlast, -⟩⟩⟩
  exact absurd (show (2000 : UInt64).toNat = min (1000 * 2 ^ 2) 30000 from hlast) (by decide)

/-! ### A completed round and a timeout -/

def arrives (m : ConsensusMessage crypto) (now : Instant) : Event crypto :=
  .message m { calm with now }

/-- The node enters round 2 after 500 ms. It times out there, after two others: its own message,
handled 150 ms later, completes the TC. -/
def secondEvents : List (Event crypto) :=
  [arrives (.propose Four.second) 500,
    arrives (.timeout (Timeout.new (qcOf Four.first [2, 0, 1]) 2 (key 1))) 1400,
    arrives (.timeout (Timeout.new (qcOf Four.first [2, 0, 1]) 2 (key 2))) 1450, expired 1500 1650]

theorem regular_secondEvents :
    Every (Fires (four 0)) firstStart (Regular (four 0) 1000) secondEvents := by
  refine every_cons fires_det ⟨rfl, by simp [arrives]⟩ (fun _ => .inl fun start hs => ?_)
    (every_cons fires_det ⟨rfl, by simp [arrives]⟩ (fun _ => .inl fun start hs => ?_)
      (every_cons fires_det ⟨rfl, by simp [arrives]⟩ (fun _ => .inl fun start hs => ?_)
        (every_cons fires_det ⟨rfl, fun io hio => by cases hio; decide⟩
          ⟨⟨?_, fun start hs => ?_, .inl rfl⟩, fun _ => .inl fun start hs => ?_⟩ every_nil)))
  on_goal 4 => exact (show 1000 * 2 ^ (0 + 1) < 2 ^ 64 by decide)
  all_goals
    cases hs
    decide

theorem backs_off_four : ∃ n : Node crypto ExponentialTimer,
    n.core.round = 3 ∧ n.core.timer.armed = [1000, 1000, 2000, 1000] ∧ BacksOff 1000 n.core := by
  have hrun : Run (Fires (four 0)) firstStart secondEvents _ :=
    .cons ⟨rfl, by simp [arrives]⟩ (.cons ⟨rfl, by simp [arrives]⟩
      (.cons ⟨rfl, by simp [arrives]⟩ (.cons ⟨rfl, fun io hio => by cases hio; decide⟩ .nil)))
  refine ⟨_, ?_, ?_, backs_off ⟨by decide, by decide⟩ (.inl fun start hs => ?_) hrun
    regular_secondEvents⟩
  · rfl
  · rfl
  · cases hs
    decide

end Hotstuff.Consensus.Backoff
