import Hotstuff.Consensus.Skipped

/-! # The rounds that the aggregator retains

`advance_round` drops the makers of past rounds, so no handler leaves a maker of a past round behind
unless it adds one (`NoStale`). Votes are added in their round at the earliest. `handle_timeout`
compares the round of the timeout before it processes the high QC, and adds the timeout after that:
a timeout whose high QC is not of a lower round is added below the round that its QC opens
(`noStale_iff`). -/

namespace Hotstuff.Consensus.Retaining

open Hotstuff.Primitives Hotstuff.Consensus.Config Hotstuff.Consensus.Messages
open Hotstuff.Consensus.Aggregation Hotstuff.Consensus.Pacing Hotstuff.Consensus.Handlers
open Hotstuff.Consensus.Steps Hotstuff.Consensus.Queues Hotstuff.Consensus.Wiring
open Hotstuff.Consensus.Locking Hotstuff.Consensus.Skipped Hotstuff.Lib.Transition Hotstuff.Ideal

variable {C : Crypto} {T : Type}

/-! ### Rounds of the makers -/

section Aggregator

variable {a : Aggregator C} {c : Committee C} {round : Round}

/-- The keys of `votes_aggregators` are rounds from `round` on. -/
def VotesFrom (round : Round) (a : Aggregator C) : Prop :=
  ∀ r d m, a.votesAggregators r d = some m → round ≤ r

/-- The keys of `timeouts_aggregators` are rounds from `round` on. -/
def TimeoutsFrom (round : Round) (a : Aggregator C) : Prop :=
  ∀ r m, a.timeoutsAggregators r = some m → round ≤ r

theorem votesFrom_cleanup (round : Round) (a : Aggregator C) :
    VotesFrom round (a.cleanup round) := by
  intro r d m hm
  unfold Aggregator.cleanup at hm
  dsimp only at hm
  split_ifs at hm with hr
  exact hr

theorem timeoutsFrom_cleanup (round : Round) (a : Aggregator C) :
    TimeoutsFrom round (a.cleanup round) := by
  intro r m hm
  unfold Aggregator.cleanup at hm
  dsimp only at hm
  split_ifs at hm with hr
  exact hr

theorem VotesFrom.addVote (h : VotesFrom round a) {vote : Vote C} (hr : round ≤ vote.round) :
    VotesFrom round (a.addVote c vote).1 := by
  intro r d m hm
  unfold Aggregator.addVote at hm
  dsimp only at hm
  split_ifs at hm with hrd
  · rw [hrd.1]
    exact hr
  · exact h r d m hm

/-- The maker of the timeout is there after the call, whether it was before or not. -/
theorem timeoutsFrom_addTimeout (h : TimeoutsFrom round a) (timeout : Timeout C) :
    TimeoutsFrom round (a.addTimeout c timeout).1 ↔ round ≤ timeout.round := by
  constructor
  · exact fun h' => h' timeout.round _ (if_pos rfl)
  · intro hr r m hm
    unfold Aggregator.addTimeout at hm
    dsimp only at hm
    split_ifs at hm with heq
    · rw [heq]
      exact hr
    · exact h r m hm

end Aggregator

/-! ### Calls -/

section Calls

variable [RoundTimer T] {env : Env C} {G : Guard C} {s s' : Core C T} (io : Io C)

section From

-- what holds once the makers below the round are dropped: for the votes, and for the timeouts
variable {F : Round → Aggregator C → Prop} (hF : ∀ r (a : Aggregator C), F r (a.cleanup r))
include hF

/-- Moving to a round drops all makers of the rounds before. -/
theorem from_moved {r : Round} (h : s.round ≤ r) :
    F (advanceRound io s r).round (advanceRound io s r).aggregator := by
  have hr : ¬ r < s.round := UInt64.not_lt.mpr h
  rw [advanceRound_round, advanceRound_aggregator, if_neg hr, if_neg hr]
  exact hF _ _

variable (hvote : ∀ {r a} {v : Vote C}, F r a → r ≤ v.round → F r (a.addVote env.committee v).1)
  (htimeout : ∀ {s : Core C T} {t r a}, HasTimeout G s t → F r a →
    F r (a.addTimeout env.committee t).1)
include hvote htimeout

/-- Besides dropping, the acts add votes in the round of the node or a later one, and timeouts. -/
theorem from_act (h : Act env G s s') (hs : F s.round s.aggregator) :
    F s'.round s'.aggregator := by
  have hkeep : ∀ r r' (a : Aggregator C), F r a → F r' (a.cleanup r') := fun _ r' a _ => hF r' a
  cases h with
  | accept io b => exact cleanup_processQc (s := s.emit (.accept b)) hkeep b.qc hs
  | acceptTc io b tc => exact cleanup_advanceRound hkeep tc.round hs
  | countVote v a r hv hok hr ha =>
    obtain rfl : (s.aggregator.addVote env.committee v).1 = a := by rw [ha]
    exact hvote hs hr
  | assembleQc io v a qc hv hok hr ha =>
    obtain rfl : (s.aggregator.addVote env.committee v).1 = a := by rw [ha]
    exact cleanup_processQc (s := { s with aggregator := (s.aggregator.addVote _ v).1 }) hkeep qc
      (hvote hs hr)
  | hearTimeout io t => exact cleanup_processQc hkeep t.highQc hs
  | countTimeout t a r ht hok hq ha =>
    obtain rfl : (s.aggregator.addTimeout env.committee t).1 = a := by rw [ha]
    exact htimeout ht hs
  | assembleTc io t a tc ht hok hq ha =>
    obtain rfl : (s.aggregator.addTimeout env.committee t).1 = a := by rw [ha]
    exact cleanup_advanceRound (s := { s with aggregator := (s.aggregator.addTimeout _ t).1 }) hkeep
      tc.round (htimeout ht hs)
  | hearTc io tc => exact cleanup_advanceRound hkeep tc.round hs
  | _ => exact hs

theorem from_acts (h : Acts env G s s') (hs : F s.round s.aggregator) :
    F s'.round s'.aggregator := by
  induction h with
  | refl => exact hs
  | tail _ h ih => exact from_act hF hvote htimeout h ih

end From

/-- Timeouts leave the votes as they are. -/
theorem votesFrom_acts (h : Acts env G s s') (hs : VotesFrom s.round s.aggregator) :
    VotesFrom s'.round s'.aggregator :=
  from_acts votesFrom_cleanup (fun hs hr => hs.addVote hr) (fun _ hs => hs) h hs

/-- The event brings no timeout. -/
def noTimeout : Guard C :=
  ⟨fun _ => True, fun _ => True, fun _ => False, fun _ => True, fun _ => True, fun _ => True,
    fun _ => True, False, True⟩

/-- Votes leave the timeouts as they are. -/
theorem timeoutsFrom_acts (h : Acts env noTimeout s s')
    (hs : TimeoutsFrom s.round s.aggregator) : TimeoutsFrom s'.round s'.aggregator := by
  refine from_acts timeoutsFrom_cleanup (fun hs _ => hs) (fun ht _ => ?_) h hs
  rcases ht with h | h
  · exact h.elim
  · exact h.1.elim

/-- A timeout that is handled in the round has a high QC of a lower round than its own. (For the
last round of all, the round after it is round 0.) -/
def InOrder (env : Env C) (round : Round) (t : Timeout C) : Prop :=
  round ≤ t.round → t.verify env.committee = .ok () → t.highQc.round + 1 ≤ t.round

/-- The high QC is of a lower round exactly if it does not open a round after that of the timeout.
-/
theorem inOrder_iff {t : Timeout C} (hr : s.round ≤ t.round) :
    (processQc io s t.highQc).round ≤ t.round ↔ t.highQc.round + 1 ≤ t.round := by
  rw [processQc_round]
  split_ifs with hlt
  · have hle : t.highQc.round + 1 ≤ s.round := by grind
    exact iff_of_true hr (UInt64.le_trans hle hr)
  · exact Iff.rfl

/-- **A timeout leaves no stale maker behind exactly if** its high QC is of a lower round. -/
theorem timeoutsFrom_handleTimeout (hs : TimeoutsFrom s.round s.aggregator) (t : Timeout C) :
    TimeoutsFrom (handleTimeout env io s t).1.round (handleTimeout env io s t).1.aggregator ↔
      InOrder env s.round t := by
  rcases handleTimeout_cases env s io t with ⟨hno, h⟩ | ⟨hr, hok, a, hcases⟩
  · rw [h]
    exact iff_of_true hs fun hr hok => absurd ⟨hr, hok⟩ hno
  have hqc : TimeoutsFrom (processQc io s t.highQc).round (processQc io s t.highQc).aggregator :=
    cleanup_processQc (fun _ r' a _ => timeoutsFrom_cleanup r' a) t.highQc hs
  have hiff : InOrder env s.round t ↔ (processQc io s t.highQc).round ≤ t.round := by
    rw [inOrder_iff io hr]
    exact ⟨fun h => h hr hok, fun h _ _ => h⟩
  have hadd := timeoutsFrom_addTimeout (c := env.committee) hqc t
  rw [hiff, ← hadd]
  rcases hcases with ⟨r, ha, -, h⟩ | ⟨tc, ha, h⟩ <;> rw [h, ha]
  have hround := addTimeout_tc ha
  have hpropose : ∀ s₁ : Core C T,
      TimeoutsFrom (if s₁.IsLeader env then generateProposal s₁ (some tc) else s₁).round
        (if s₁.IsLeader env then generateProposal s₁ (some tc) else s₁).aggregator ↔
      TimeoutsFrom s₁.round s₁.aggregator := by
    intro s₁
    split_ifs <;> exact Iff.rfl
  dsimp only
  rw [hpropose, emit_round, emit_aggregator]
  by_cases hlt : t.round < (processQc io s t.highQc).round
  · -- the TC is of a past round, so that nothing is dropped
    rw [advanceRound_of_lt _ io (by rwa [hround])]
  · have hle := UInt64.not_lt.mp hlt
    rw [ha] at hadd
    exact iff_of_true (from_moved io timeoutsFrom_cleanup (by rwa [hround])) (hadd.mpr hle)

end Calls

/-! ### Runs -/

section Runs

variable [RoundTimer T] {env : Env C} {n n' : Node C T} {e : Event C}

/-- The aggregator holds no makers of past rounds. -/
structure NoStale (s : Core C T) : Prop where
  votes : VotesFrom s.round s.aggregator
  timeouts : TimeoutsFrom s.round s.aggregator

/-- The timeout of the event, received or of the node itself, has a high QC of a lower round. -/
def Ordered (env : Env C) (n : Node C T) : Event C → Prop
  | .message (.timeout t) _ => InOrder env n.core.round t
  | .timeout _ => InOrder env n.core.round (Timeout.new n.core.highQc n.core.round env.name)
  | _ => True

theorem votesFrom_step (hn : Queues.Ok env n) (h : n.step env e = some n')
    (hs : VotesFrom n.core.round n.core.aggregator) :
    VotesFrom n'.core.round n'.core.aggregator := by
  rcases step_core_cases hn h with hc | ⟨x, hc⟩ | hacts
  · rwa [hc]
  · rw [hc]
    exact hs
  · exact votesFrom_acts hacts hs

theorem timeoutsFrom_step (hn : Queues.Ok env n) (h : n.step env e = some n')
    (hs : TimeoutsFrom n.core.round n.core.aggregator) :
    TimeoutsFrom n'.core.round n'.core.aggregator ↔ Ordered env n e := by
  rcases hc : e.isCore with _ | _
  · have htriv : Ordered env n e := by
      cases e with
      | message | loopback | timeout => cases hc
      | _ => trivial
    refine iff_of_true ?_ htriv
    rcases task_step_cases hn hc h with hf | ⟨x, -, rfl⟩
    · rwa [hf.core]
    · exact hs
  cases e with
  | message m io =>
    obtain ⟨-, rfl⟩ := step_message h
    rw [call_core]
    cases m with
    | propose b =>
      exact iff_of_true (timeoutsFrom_acts (handleProposal_acts io trivial (fun _ _ => trivial)
        (fun _ _ => trivial) fun _ _ => trivial) hs) trivial
    | vote v => exact iff_of_true (timeoutsFrom_acts (handleVote_acts io (.inl trivial)) hs) trivial
    | timeout t => exact timeoutsFrom_handleTimeout io hs t
    | tc tc => exact iff_of_true (timeoutsFrom_acts (handleTc_acts io fun _ => trivial) hs) trivial
  | loopback io =>
    obtain ⟨hh, b, bs, hl, rfl⟩ := step_loopback h
    have hq := accepted_of_ready hn (hn.loopback hh b (by simp [hl]))
    rw [call_core]
    exact iff_of_true (timeoutsFrom_acts (processBlock_acts io ⟨trivial, .inr trivial, hq⟩
      (fun _ _ => trivial) fun _ _ => trivial) hs) trivial
  | timeout io =>
    obtain ⟨-, rfl⟩ := step_timeout h
    rw [call_core]
    exact timeoutsFrom_handleTimeout _ (s := Core.emit
      { increaseLastVotedRound n.core n.core.round with
        timer := RoundTimer.startRound io.now (RoundTimer.reset io.now n.core.timer) } _) hs _
  | _ => simp [Event.isCore] at hc

theorem noStale_boot (io : Io C) (timer : T) : NoStale (Node.boot env io timer).core := by
  have hagg : (Node.boot env io timer).core.aggregator = _ := (boot_fields env io timer).2.2.2.2.2
  refine ⟨fun r d m hm => ?_, fun r m hm => ?_⟩ <;> rw [hagg] at hm <;> cases hm

/-- Votes of past rounds are never held. -/
theorem run_votesFrom {io : Io C} {timer : T} {es : List (Event C)}
    (r : NodeRun env (Node.boot env io timer) es n) :
    VotesFrom n.core.round n.core.aggregator :=
  run_invariant (boot_ok io timer) r (P := fun n => VotesFrom n.core.round n.core.aggregator)
    (noStale_boot io timer).votes fun _ _ _ hn hs h => votesFrom_step hn h hs

/-- **When the aggregator holds no stale rounds**: in all states of a run exactly if every timeout
that is handled, the node's own ones included, has a high QC of a lower round. -/
theorem noStale_iff {io : Io C} {timer : T} {es : List (Event C)}
    (r : NodeRun env (Node.boot env io timer) es n) :
    (∀ es₁ es₂ n₁, es = es₁ ++ es₂ → NodeRun env (Node.boot env io timer) es₁ n₁ →
        NoStale n₁.core) ↔
      Every (fun n e n' => n.step env e = some n') (Node.boot env io timer) (Ordered env) es := by
  refine forall_iff_every (step_det _) r (boot_ok io timer) (fun _ _ _ hn h => step_ok hn h)
    (noStale_boot io timer) fun n e n' hn hs h => ?_
  rw [← timeoutsFrom_step hn h hs.timeouts]
  exact ⟨NoStale.timeouts, fun ht => ⟨votesFrom_step hn h hs.votes, ht⟩⟩

/-- The node's own timeouts always have, as long as the rounds do not wrap. -/
theorem ordered_timeout {io io' : Io C} {timer : T} {es : List (Event C)}
    (r : NodeRun env (Node.boot env io timer) es n) (hw : NoWrap n.core) :
    Ordered env n (.timeout io') := by
  have hlt : n.core.highQc.round < n.core.round := (run_locked r hw).round
  show _ → _ → n.core.highQc.round + 1 ≤ n.core.round
  grind

end Runs

/-! ### A timeout with the QC of its own round -/

/-- The timeout of authority 3 in round 1, which carries the QC of round 1. -/
def lateTimeout : Timeout crypto := Timeout.new firstQc 1 (key 3)

/-- **A stale maker**: the QC moves the node to round 2, and the timeout is added in round 1. -/
theorem exists_stale : ¬ ∀ (es : List (Event crypto)) (n : Node crypto (Timer ℚ)),
    NodeRun (four 2) lateStart es n → NoStale n.core := by
  intro h
  obtain ⟨n, hn⟩ : ∃ n, lateRun [.message (.timeout lateTimeout) calm] = some n := ⟨_, rfl⟩
  have hstale := (h _ n (run_of_exec _ _ _ hn)).timeouts 1
  cases hn
  exact absurd (hstale _ rfl) (by decide)

/-- The timeout of round 2 carries a QC of round 1. -/
theorem noStale_iff_late : ∃ n : Node crypto (Timer ℚ), n.core.round = 2 ∧ NoStale n.core := by
  obtain ⟨n, hn⟩ : ∃ n, lateRun [.message (.timeout secondTimeout) calm] = some n := ⟨_, rfl⟩
  refine ⟨n, by cases hn; rfl, ?_⟩
  have r := run_of_exec _ _ _ hn
  refine (noStale_iff r).mpr ?_ _ [] n (List.append_nil _).symm r
  intro es₁ e es₂ m hes hr
  have he : e ∈ [Event.message (.timeout secondTimeout) calm] := by rw [hes]; simp
  cases List.mem_singleton.mp he
  exact fun _ _ => by decide

end Hotstuff.Consensus.Retaining
