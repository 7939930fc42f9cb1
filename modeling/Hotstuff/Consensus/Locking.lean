import Hotstuff.Consensus.Queues
import Hotstuff.Ideal

/-! # The voting lock of one node

The lock is spread over `last_voted_round`, `high_qc` and `round`. What it amounts to is a relation
between the entries of the trace, `Lock`: of two signed statements, the later one respects the
earlier one. It holds of every trace (`pairwise_lock`) whatever the rounds are; that `high_qc` stays
below `round`, and hence that the QC of a block voted for is of an earlier round than the block, is
true as long as `round + 1` has not wrapped (`NoWrap`). -/

namespace Hotstuff.Consensus.Locking

open Hotstuff.Primitives Hotstuff.Consensus.Config Hotstuff.Consensus.Messages
open Hotstuff.Consensus.Pacing Hotstuff.Consensus.Handlers Hotstuff.Consensus.Steps
open Hotstuff.Consensus.Entries Hotstuff.Consensus.Queues Hotstuff.Consensus.Wiring
open Hotstuff.Lib.Transition Hotstuff.Ideal

variable {C : Crypto} {T : Type}

/-- The node has not moved past the last round: no certificate of round `2^64 - 1` was processed. -/
def NoWrap (s : Core C T) : Prop := Action.moved 0 ∉ s.trace

def movedTo : Action C → Option Round
  | .moved r => some r
  | _ => none

instance (s : Core C T) : Decidable (NoWrap s) :=
  decidable_of_iff (0 ∉ s.trace.filterMap movedTo) (not_congr (by
    rw [List.mem_filterMap]
    constructor
    · rintro ⟨a, ha, h0⟩
      cases a <;> simp only [movedTo, reduceCtorEq, Option.some.injEq] at h0
      rwa [h0] at ha
    · exact fun h => ⟨_, h, rfl⟩))

/-- **The lock** between an entry of the trace and a later one. -/
def Lock : Action C → Action C → Prop
  | .vote b, .vote b' => b.round < b'.round
  | .timeout t, .vote b => t.round < b.round
  | .vote b, .timeout t => b.qc.round ≤ t.highQc.round
  | _, _ => True

/-- The entry is not a signed statement. -/
def Unsigned : Action C → Prop
  | .vote _ | .timeout _ => False
  | _ => True

theorem lock_of_unsigned {a a' : Action C} (h : Unsigned a ∨ Unsigned a') : Lock a a' := by
  cases a <;> cases a' <;> simp_all [Unsigned, Lock]

theorem unsigned_qcTrace (r : Round) (qc : QC C) : ∀ a ∈ qcTrace r qc, Unsigned a :=
  forall_mem_qcTrace trivial trivial

theorem unsigned_moved {p : Prop} [Decidable p] {r : Round} :
    ∀ a ∈ (if p then [] else [Action.moved r] : List (Action C)), Unsigned a :=
  forall_mem_moved trivial

/-- The second rule of `make_vote`: the TC of the block is not empty, and the QC is of the round
before, or the TC is and the QC is not below any round that the TC reports. -/
theorem safetyRule2_iff {b : Block C} : safetyRule2 b = .ok true ↔
    (∀ tc, b.tc = some tc → tc.votes ≠ []) ∧ (b.qc.round + 1 = b.round ∨
      ∃ tc, b.tc = some tc ∧ tc.round + 1 = b.round ∧ ∀ h ∈ tc.highQcRounds, h ≤ b.qc.round) := by
  unfold safetyRule2
  rcases htc : b.tc with _ | tc
  · simp only [Except.ok.injEq, reduceCtorEq, false_implies, implies_true, false_and, exists_false,
      or_false, true_and]
    exact decide_eq_true_iff
  rcases hm : tc.highQcRounds.max? with _ | m
  · have hv : tc.votes = [] := by simpa [TC.highQcRounds] using hm
    simp [hm, hv]
  · obtain ⟨hin, hmax⟩ := List.max?_eq_some_iff.mp hm
    have hv : tc.votes ≠ [] := by
      rintro hv
      simp [TC.highQcRounds, hv] at hm
    have hle : m ≤ b.qc.round ↔ ∀ h ∈ tc.highQcRounds, h ≤ b.qc.round :=
      ⟨fun h x hx => UInt64.le_trans (hmax x hx) h, fun h => h m hin⟩
    simp only [hm, Except.ok.injEq, Bool.or_eq_true, Bool.and_eq_true, Option.some.injEq,
      forall_eq', exists_eq_left', hv, ne_eq, not_false_eq_true, true_and, ← hle]
    exact Iff.or decide_eq_true_iff (Iff.and decide_eq_true_iff decide_eq_true_iff)

section Steps

variable [RoundTimer T] {env : Env C} {G : Guard C} {s s' : Core C T}

/-- An elementary step signs a timeout, or a vote, or nothing. -/
theorem Act.signed_cases (h : Act env G s s') :
    (∃ t, s'.trace = s.trace ++ [.timeout t] ∧ t.highQc = s.highQc) ∨
      (∃ b, s'.trace = s.trace ++ [.vote b] ∧ .store b ∈ s.trace ∧ b.round = s.round ∧
        s.lastVotedRound < b.round) ∨
      ∃ l, s'.trace = s.trace ++ l ∧ ∀ a ∈ l, Unsigned a := by
  cases h with
  | timeout io => exact .inl ⟨_, rfl, rfl⟩
  | vote b hb hG hr hl hs => exact .inr (.inl ⟨b, rfl, hb, hr, hl⟩)
  | accept io b =>
    refine .inr (.inr ⟨.accept b :: qcTrace s.round b.qc, by simp [processQc_trace], ?_⟩)
    intro a ha
    rcases List.mem_cons.mp ha with rfl | ha
    · trivial
    · exact unsigned_qcTrace _ _ a ha
  | acceptTc | hearTc => exact .inr (.inr ⟨_, advanceRound_trace _ _ _, unsigned_moved⟩)
  | countVote | countTimeout => exact .inr (.inr ⟨[], by simp, by simp⟩)
  | assembleQc | hearTimeout =>
    exact .inr (.inr ⟨_, processQc_trace _ _ _, unsigned_qcTrace _ _⟩)
  | assembleTc io t a tc =>
    refine .inr (.inr ⟨_, by rw [emit_trace, advanceRound_trace, List.append_assoc], ?_⟩)
    intro x hx
    rcases List.mem_append.mp hx with hx | hx
    · exact unsigned_moved x hx
    · rw [List.mem_singleton.mp hx]; trivial
  | make | suspend | stuck | sendVote =>
    exact .inr (.inr ⟨_, rfl, fun a ha => by rw [List.mem_singleton.mp ha]; trivial⟩)
  | wait | store | commit =>
    refine .inr (.inr ⟨_, List.append_assoc _ _ _, fun a ha => ?_⟩)
    simp only [List.cons_append, List.nil_append, List.mem_cons, List.not_mem_nil, or_false] at ha
    rcases ha with rfl | rfl <;> trivial
  | deliver b l =>
    refine .inr (.inr ⟨_, rfl, fun a ha => ?_⟩)
    obtain ⟨x, -, rfl⟩ := List.mem_map.mp ha
    trivial

/-- A new vote is for a stored block of a round above those voted in. -/
theorem Act.vote_cases (h : Act env G s s') {b : Block C} (hb : .vote b ∈ s'.trace) :
    .vote b ∈ s.trace ∨ (.store b ∈ s.trace ∧ b.round = s.round ∧ s.lastVotedRound < b.round) := by
  rcases Act.signed_cases h with ⟨t, ht, -⟩ | ⟨b', hb', hst, hr, hlt⟩ | ⟨l, hl, hu⟩
  · rw [ht] at hb
    exact .inl (by simpa using hb)
  · rw [hb'] at hb
    rcases List.mem_append.mp hb with hb | hb
    · exact .inl hb
    · cases List.mem_singleton.mp hb
      exact .inr ⟨hst, hr, hlt⟩
  · rw [hl] at hb
    exact .inl ((List.mem_append.mp hb).resolve_right fun h => hu _ h)

omit [RoundTimer T] in
/-- A processed QC is not above the high QC. -/
theorem le_highQc_of_accepted (hs : Entries.Ok env s) {qc : QC C} (hq : Accepted s qc) :
    qc.round ≤ s.highQc.round := by
  rcases hq with hg | ⟨r, hr⟩
  · rw [hg]; exact UInt64.zero_le
  · exact hs.entry _ hr

theorem Act.pairwise_lock (h : Act env G s s') (hs : Entries.Ok env s)
    (hl : s.trace.Pairwise Lock) : s'.trace.Pairwise Lock := by
  rcases Act.signed_cases h with ⟨t, ht, hq⟩ | ⟨b, hb, hst, -, hlast⟩ | ⟨l, hl', hu⟩
  · rw [ht, List.pairwise_append]
    refine ⟨hl, List.pairwise_singleton _ _, fun a ha x hx => ?_⟩
    rw [List.mem_singleton.mp hx]
    cases a with
    | vote b =>
      show b.qc.round ≤ t.highQc.round
      rw [hq]
      exact le_highQc_of_accepted hs (hs.entry _ (hs.entry _ ha).1)
    | _ => trivial
  · rw [hb, List.pairwise_append]
    refine ⟨hl, List.pairwise_singleton _ _, fun a ha x hx => ?_⟩
    rw [List.mem_singleton.mp hx]
    cases a with
    | vote b' =>
      have := (hs.entry _ ha).2.1
      exact UInt64.lt_of_le_of_lt this hlast
    | timeout t =>
      have := (hs.entry _ ha).2.1
      exact UInt64.lt_of_le_of_lt this hlast
    | _ => trivial
  · rw [hl', List.pairwise_append]
    refine ⟨hl, ?_, fun a _ x hx => lock_of_unsigned (.inr (hu x hx))⟩
    exact List.Pairwise.imp_of_mem (R := fun _ _ => True)
      (fun ha _ _ => lock_of_unsigned (.inl (hu _ ha))) (List.pairwise_of_forall fun _ _ => trivial)

theorem Acts.pairwise_lock (h : Acts env G s s') (hs : Entries.Ok env s)
    (hl : s.trace.Pairwise Lock) : s'.trace.Pairwise Lock := by
  induction h with
  | refl => exact hl
  | tail h h' ih => exact Act.pairwise_lock h' (Acts.ok h hs) ih

/-! ### Rounds -/

theorem round_advanceRound (io : Io C) {r : Round} (hw : NoWrap (advanceRound io s r))
    (hs : s.highQc.round < s.round) :
    (advanceRound io s r).highQc.round < (advanceRound io s r).round ∧
      s.round ≤ (advanceRound io s r).round := by
  by_cases hr : r < s.round
  · rw [advanceRound_of_lt s io hr]
    exact ⟨hs, UInt64.le_refl _⟩
  · have h0 : r + 1 ≠ 0 := fun h0 => hw (by simp [advanceRound_trace, hr, h0])
    have h1 := lt_add_one h0
    rw [advanceRound_highQc, advanceRound_round, if_neg hr]
    exact ⟨by grind, by grind⟩

theorem round_processQc (io : Io C) {qc : QC C} (hw : NoWrap (processQc io s qc))
    (hs : s.highQc.round < s.round) :
    (processQc io s qc).highQc.round < (processQc io s qc).round ∧
      s.round ≤ (processQc io s qc).round := by
  rw [processQc_highQc, processQc_round]
  by_cases hr : qc.round < s.round
  · rw [if_pos hr]
    split_ifs <;> grind
  · have h0 : qc.round + 1 ≠ 0 := fun h0 => hw (by simp [processQc_trace, qcTrace, hr, h0])
    have h1 := lt_add_one h0
    rw [if_neg hr]
    split_ifs <;> grind

/-- **The round grows and stays above the high QC**, without a wrap. -/
theorem Act.round (h : Act env G s s') (hw : NoWrap s') (hs : s.highQc.round < s.round) :
    s'.highQc.round < s'.round ∧ s.round ≤ s'.round := by
  cases h with
  | accept io b => exact round_processQc (s := s.emit (.accept b)) io hw hs
  | assembleQc io v a qc => exact round_processQc (s := { s with aggregator := a }) io hw hs
  | hearTimeout io t => exact round_processQc io hw hs
  | acceptTc io | hearTc io => exact round_advanceRound io hw hs
  | assembleTc io t a tc =>
    exact round_advanceRound (s := { s with aggregator := a }) io (fun h => hw (mem_emit h)) hs
  | _ => exact ⟨hs, UInt64.le_refl _⟩

theorem Acts.round (h : Acts env G s s') (hw : NoWrap s') (hs : s.highQc.round < s.round) :
    s'.highQc.round < s'.round ∧ s.round ≤ s'.round := by
  induction h with
  | refl => exact ⟨hs, UInt64.le_refl _⟩
  | tail _ h ih =>
    obtain ⟨h1, h2⟩ := ih fun h0 => hw ((Act.grows h).trace h0)
    obtain ⟨h3, h4⟩ := Act.round h hw h1
    exact ⟨h3, UInt64.le_trans h2 h4⟩

/-- The QC of a block voted for is of an earlier round than the block. -/
def Above (s : Core C T) : Prop := ∀ b, Action.vote b ∈ s.trace → b.qc.round < b.round

theorem Act.above (h : Act env G s s') (hs : Entries.Ok env s) (hr : s.highQc.round < s.round)
    (ha : Above s) : Above s' := by
  intro b hb
  rcases Act.vote_cases h hb with hb | ⟨hst, hround, -⟩
  · exact ha b hb
  · have := le_highQc_of_accepted hs (hs.entry _ hst)
    rw [hround]
    exact UInt64.lt_of_le_of_lt this hr

theorem Acts.above (h : Acts env G s s') (hw : NoWrap s') (hs : Entries.Ok env s)
    (hr : s.highQc.round < s.round) (ha : Above s) : Above s' := by
  induction h with
  | refl => exact ha
  | tail h h' ih =>
    have hw' : NoWrap _ := fun h0 => hw ((Act.grows h').trace h0)
    exact Act.above h' (Acts.ok h hs) (Acts.round h hw' hr).1 (ih hw')

end Steps

/-! ### Runs -/

section Runs

variable [RoundTimer T] {env : Env C} {n n' : Node C T} {e : Event C}

/-- The invariant of the lock. -/
structure Locked (s : Core C T) : Prop where
  pairwise : s.trace.Pairwise Lock
  round : s.highQc.round < s.round
  above : Above s

omit [RoundTimer T] in
theorem noWrap_of_grows {s s' : Core C T} (h : Grows s s') (hw : NoWrap s') : NoWrap s :=
  fun h0 => hw (h.trace h0)

theorem locked_step (hn : Ok env n) (h : n.step env e = some n') (hw : NoWrap n'.core)
    (hl : Locked n.core) : Locked n'.core ∧ n.core.round ≤ n'.core.round := by
  rcases step_core_cases hn h with hc | ⟨x, hc⟩ | hacts
  · rw [hc]; exact ⟨hl, UInt64.le_refl _⟩
  · rw [hc]; exact ⟨⟨hl.pairwise, hl.round, hl.above⟩, UInt64.le_refl _⟩
  · obtain ⟨h1, h2⟩ := Acts.round hacts hw hl.round
    exact ⟨⟨Acts.pairwise_lock hacts hn.core hl.pairwise, h1,
      Acts.above hacts hw hn.core hl.round hl.above⟩, h2⟩

theorem locked_boot (io : Io C) (timer : T) : Locked (Node.boot env io timer).core := by
  have htr : (Node.boot env io timer).core.trace = _ := boot_trace env io timer
  obtain ⟨hq, hr, -⟩ := boot_fields env io timer
  refine ⟨?_, ?_, ?_⟩
  · rw [htr]
    split_ifs
    · exact List.pairwise_singleton _ _
    · exact List.Pairwise.nil
  · show (Core.boot env io timer).highQc.round < (Core.boot env io timer).round
    rw [hq, hr]
    show (0 : Round) < 1
    decide
  · intro b hb
    rw [htr] at hb
    split_ifs at hb <;> simp at hb

theorem run_locked {io : Io C} {timer : T} {es : List (Event C)}
    (r : NodeRun env (Node.boot env io timer) es n) (hw : NoWrap n.core) : Locked n.core :=
  run_invariant_of (boot_ok io timer) r (P := fun n => Locked n.core) noWrap_of_grows
    (locked_boot io timer) (fun _ _ _ hn hl hw h => (locked_step hn h hw hl).1) hw

/-- **The voting lock.** From any reachable state on, as long as no certificate of the last round
has been processed: the rounds only grow, the high QC is below the round, the signed statements
respect the lock, and votes are for blocks above their QC. -/
theorem voting_lock {io : Io C} {timer : T} {es es' : List (Event C)}
    (r : NodeRun env (Node.boot env io timer) es n) (r' : NodeRun env n es' n')
    (hw : NoWrap n'.core) :
    n.core.round ≤ n'.core.round ∧ n.core.highQc.round ≤ n'.core.highQc.round ∧
      n'.core.highQc.round < n'.core.round ∧ n'.core.trace.Pairwise Lock ∧
      ∀ b, .vote b ∈ n'.core.trace → b.qc.round < b.round := by
  have hn := run_ok r
  have hg := (run_grows hn r').2
  have hl := run_locked r (noWrap_of_grows hg hw)
  have hl' : Locked n'.core ∧ n.core.round ≤ n'.core.round :=
    run_invariant_of hn r' (P := fun m => Locked m.core ∧ n.core.round ≤ m.core.round)
      noWrap_of_grows ⟨hl, UInt64.le_refl _⟩
      (fun _ _ _ hn hl hw h =>
        ⟨(locked_step hn h hw hl.1).1, UInt64.le_trans hl.2 (locked_step hn h hw hl.1).2⟩) hw
  exact ⟨hl'.2, hg.highQc, hl'.1.round, hl'.1.pairwise, hl'.1.above⟩

/-- The timer expires in round 2, and then the block of round 3 arrives. -/
def slowThird : List (Event crypto) := [.timeout calm, Four.proposal Four.third]

/-- A node times out in round 2, and then votes for the block of round 3. -/
theorem voting_lock_slowThird : ∃ n n' : Node crypto (Timer ℚ), n.core.round = 2 ∧
    n'.core.round = 3 ∧ .vote Four.third ∈ n'.core.trace ∧ ¬ Four.third.qc.IsGenesis ∧
      n.core.round ≤ n'.core.round ∧ n'.core.trace.Pairwise Lock ∧
      Four.third.qc.round < Four.third.round := by
  have r := run_of_followerRun (Four.arrivals.take 6) rfl
  have r' := run_of_exec (fun n e => n.step (four 0) e) slowThird
    ((followerRun (Four.arrivals.take 6)).getD follower) rfl
  have hvote := List.mem_of_getElem?
    (show ((followerRun (Four.arrivals.take 6 ++ slowThird)).getD follower).core.trace[27]? =
      some (.vote Four.third) from rfl)
  obtain ⟨h1, -, -, h4, h5⟩ := voting_lock r r' (by decide)
  exact ⟨_, _, rfl, rfl, hvote, by decide, h1, h4, h5 _ hvote⟩

end Runs

end Hotstuff.Consensus.Locking
