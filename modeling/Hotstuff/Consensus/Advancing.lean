import Hotstuff.Consensus.Steps

/-! # What the handlers do to the round and to the timer

Most of what the core does concerns neither the round nor the timer (`Calm`). The rest are calls of
`process_qc`, `advance_round` and `generate_proposal`, which all see the clock of the event
(`handleMessage_paces`, `processBlock_paces`). -/

namespace Hotstuff.Consensus.Advancing

open Hotstuff.Primitives Hotstuff.Consensus.Config Hotstuff.Consensus.Messages
open Hotstuff.Consensus.Aggregation Hotstuff.Consensus.Pacing Hotstuff.Consensus.Handlers
open Hotstuff.Consensus.Steps

variable {C : Crypto} {T : Type}

/-- The entries that concern the round or the timer. -/
def isPacing : Action C → Bool
  | .processQc _ _ | .moved _ | .make _ _ _ | .timeout _ => true
  | _ => false

/-- From `s` to `s'` the round and the timer stay as they are. -/
structure Calm (s s' : Core C T) : Prop where
  round : s'.round = s.round
  timer : s'.timer = s.timer
  trace : ∃ l, s'.trace = s.trace ++ l ∧ ∀ a ∈ l, isPacing a = false

section Calm

variable {s s' s'' : Core C T}

theorem calm_of_eq (hr : s'.round = s.round) (ht : s'.timer = s.timer)
    (htr : s'.trace = s.trace) : Calm s s' :=
  ⟨hr, ht, [], by rw [htr, List.append_nil], by simp⟩

theorem Calm.refl (s : Core C T) : Calm s s := calm_of_eq rfl rfl rfl

theorem Calm.trans (h : Calm s s') (h' : Calm s' s'') : Calm s s'' := by
  obtain ⟨l, hl, hc⟩ := h.trace
  obtain ⟨l', hl', hc'⟩ := h'.trace
  refine ⟨h'.round.trans h.round, h'.timer.trans h.timer, l ++ l', ?_, ?_⟩
  · rw [hl', hl, List.append_assoc]
  · exact List.forall_mem_append.mpr ⟨hc, hc'⟩

theorem calm_emit {a : Action C} (ha : isPacing a = false) : Calm s (s.emit a) :=
  ⟨rfl, rfl, [a], rfl, List.forall_mem_singleton.mpr ha⟩

variable (s) (env : Env C) (io : Io C)

theorem commit_calm (b : Block C) : Calm s (commit env io s b).1 := by
  have hemit : Calm s (s.emit (.commit s.lastCommittedRound b)) := calm_emit rfl
  rcases commit_cases env s io b with
    ⟨-, h⟩ | ⟨-, ⟨l, -, h⟩ | ⟨a, -, -, -, h⟩ | ⟨e, h⟩ | ⟨-, h⟩⟩ <;> rw [h]
  · exact hemit
  · exact hemit.trans ⟨rfl, rfl, _, rfl, List.forall_mem_map.mpr fun _ _ => rfl⟩
  · exact hemit.trans (calm_emit rfl)
  · exact hemit
  · exact hemit

theorem commitRule_calm (b0 b1 : Block C) : Calm s (commitRule env io s b0 b1).1 := by
  unfold commitRule
  split_ifs
  · exact (calm_emit rfl).trans (commit_calm _ env io b0)
  · exact .refl s

variable [RoundTimer T]

/-- The core does nothing with the round, or comes to the vote. -/
theorem processBlock_calm (b : Block C) : Calm s (processBlock env io s b).1 ∨
    ∃ s₁, Calm s s₁ ∧ processBlock env io s b = voteFor env io s₁ b := by
  rcases processBlock_cases env s io b with
    ⟨b0, b1, -, -, -, hc⟩ | h | ⟨b1, -, -, -, h⟩ | ⟨e, h⟩
  · have hstore : Calm s (storeBlock io s b) := ⟨rfl, rfl, [.store b], rfl, by simp [isPacing]⟩
    have hclean : Calm (storeBlock io s b) ((storeBlock io s b).emit (.cleanup b0 b1 b)) :=
      calm_emit rfl
    have hcommit := (hstore.trans hclean).trans (commitRule_calm _ env io b0 b1)
    rcases hc with ⟨e, -, h⟩ | ⟨-, h⟩
    · rw [h]
      exact .inl hcommit
    · exact .inr ⟨_, hcommit, h⟩
  · rw [h]
    exact .inl (calm_emit rfl)
  · rw [h]
    exact .inl (calm_emit rfl)
  · rw [h]
    exact .inl (.refl s)

/-- The node keeps quiet, or handles its own vote. -/
theorem voteFor_calm (b : Block C) : Calm s (voteFor env io s b).1 ∨
    ∃ s₁, b.round = s.round ∧ Calm s s₁ ∧
      voteFor env io s b = handleVote env io s₁ (Vote.new b env.name) := by
  have hemit : Calm s ((increaseLastVotedRound s b.round).emit (.vote b)) :=
    ⟨rfl, rfl, [.vote b], rfl, by simp [isPacing]⟩
  rcases voteFor_cases env s io b with h | ⟨-, h⟩ | ⟨hr, -, -, ⟨-, h⟩ | h | ⟨k, h⟩⟩
  · rw [h]
    exact .inl (.refl s)
  · rw [h]
    exact .inl (.refl s)
  · rw [h]
    exact .inl hemit
  · exact .inr ⟨_, hr, hemit, h⟩
  · rw [h]
    exact .inl (hemit.trans (calm_emit rfl))

end Calm

/-! ### The calls that concern the round -/

/-- One call, all with the `io` of the event. -/
inductive Pace [RoundTimer T] (io : Io C) : Core C T → Core C T → Prop
  | calm {s s' : Core C T} (h : Calm s s') : Pace io s s'
  | processQc (s : Core C T) (qc : QC C) : Pace io s (processQc io s qc)
  | advanceRound (s : Core C T) (r : Round) : Pace io s (advanceRound io s r)
  | generateProposal (s : Core C T) (tc : Option (TC C)) : Pace io s (generateProposal s tc)

abbrev Paces [RoundTimer T] (io : Io C) : Core C T → Core C T → Prop :=
  Relation.ReflTransGen (Pace io)

section Paces

variable [RoundTimer T] (s : Core C T) (env : Env C) (io : Io C)

theorem Calm.paces {s s' : Core C T} (h : Calm s s') : Paces io s s' := .single (.calm h)

theorem propose_paces (tc : Option (TC C)) :
    Paces io s (if s.IsLeader env then generateProposal s tc else s) := by
  split_ifs
  · exact .single (.generateProposal s tc)
  · exact .refl

theorem handleVote_paces (v : Vote C) : Paces io s (handleVote env io s v).1 := by
  have hagg : ∀ a, Calm s { s with aggregator := a } := fun a => calm_of_eq rfl rfl rfl
  rcases handleVote_cases env s io v with h | ⟨-, -, a, ⟨r, -, h⟩ | ⟨qc, -, h⟩⟩ <;> rw [h]
  · exact (hagg a).paces io
  · exact (((hagg a).paces io).tail (.processQc _ qc)).trans (propose_paces _ env io none)

theorem handleTimeout_paces (t : Timeout C) : Paces io s (handleTimeout env io s t).1 := by
  have hqc : Paces io s (processQc io s t.highQc) := .single (.processQc s t.highQc)
  have hagg : ∀ a, Paces io s { processQc io s t.highQc with aggregator := a } :=
    fun a => hqc.tail (.calm (calm_of_eq rfl rfl rfl))
  rcases handleTimeout_cases env s io t with
    ⟨-, h⟩ | ⟨-, -, a, ⟨r, -, -, h⟩ | ⟨tc, -, h⟩⟩ <;> rw [h]
  · exact hagg a
  · exact (((hagg a).tail (.advanceRound _ tc.round)).tail (.calm (calm_emit rfl))).trans
      (propose_paces _ env io (some tc))

/-- A received TC does nothing, or advances the round. -/
theorem handleTc_paces (tc : TC C) : (handleTc env io s tc).1 = s ∨ ¬ tc.round < s.round ∧
    Paces io (advanceRound io s tc.round) (handleTc env io s tc).1 := by
  rcases handleTc_cases env s io tc with ⟨-, h⟩ | ⟨-, hr, h⟩ <;> rw [h]
  · exact .inl rfl
  · exact .inr ⟨UInt64.not_lt.mpr hr, propose_paces _ env io (some tc)⟩

theorem processBlock_paces (b : Block C) : Paces io s (processBlock env io s b).1 := by
  rcases processBlock_calm s env io b with h | ⟨s₁, h, heq⟩
  · exact h.paces io
  rw [heq]
  rcases voteFor_calm s₁ env io b with h' | ⟨s₂, -, h', heq'⟩
  · exact (h.trans h').paces io
  · rw [heq']
    exact ((h.trans h').paces io).trans (handleVote_paces s₂ env io _)

theorem handleProposal_paces (b : Block C) : Paces io s (handleProposal env io s b).1 := by
  by_cases hc : Checked env b
  swap
  · obtain ⟨e, he⟩ := handleProposal_unchecked env s io hc
    rw [he]
  have hcert : Paces io s (processCertificates io (s.emit (.accept b)) b) := by
    have hqc := ((calm_emit (s := s) (a := .accept b) rfl).paces io).tail (.processQc _ b.qc)
    unfold processCertificates
    rcases b.tc with _ | tc
    · exact hqc
    · exact hqc.tail (.advanceRound _ tc.round)
  rcases handleProposal_checked env s io hc with ⟨e, h⟩ | ⟨-, h⟩ | ⟨missing, -, -, h⟩ <;> rw [h]
  · exact hcert
  · exact hcert.trans (processBlock_paces _ env io b)
  · exact hcert.trans (((calm_emit rfl).trans (calm_emit rfl)).paces io)

end Paces

end Hotstuff.Consensus.Advancing
