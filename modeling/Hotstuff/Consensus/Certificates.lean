import Hotstuff.Consensus.Entries

/-! # Where certificates come from

A QC that the core processes was in a verified proposal or timeout, or the core assembled it; a TC
that it broadcasts it assembled. What holds of the counted votes and timeouts holds of the entries
of the makers (`Act.aggregator_ok`), and so of an assembled certificate. -/

namespace Hotstuff.Consensus.Certificates

open Hotstuff.Primitives Hotstuff.Consensus.Config Hotstuff.Consensus.Messages
open Hotstuff.Consensus.Aggregation Hotstuff.Consensus.Pacing Hotstuff.Consensus.Handlers
open Hotstuff.Consensus.Steps Hotstuff.Consensus.Entries

variable {C : Crypto} {T : Type} [RoundTimer T] {env : Env C} {G : Guard C} {s s' : Core C T}

theorem mem_qcTrace {r r' : Round} {qc qc' : QC C} (h : .processQc qc' r' ∈ qcTrace r qc) :
    qc' = qc ∧ r' = r := by
  simpa using mem_qcTrace_iff.mp h

theorem tc_not_mem_qcTrace {r : Round} {qc : QC C} {tc : TC C} : .tc tc ∉ qcTrace r qc := by
  simp [mem_qcTrace_iff]

theorem not_mem_moved {p : Prop} [Decidable p] {r : Round} {a : Action C} (ha : a ≠ .moved r) :
    a ∉ (if p then [] else [Action.moved r]) :=
  fun h => ha (mem_moved.mp h).2

/-- The evidence for a QC that an elementary step processes. -/
inductive QcOrigin (env : Env C) (G : Guard C) (s : Core C T) (qc : QC C) : Prop
  | proposal (b : Block C) (hb : G.proposal b) (hc : Checked env b) (hq : qc = b.qc)
  | timeout (t : Timeout C) (ht : HasTimeout G s t) (hok : t.verify env.committee = .ok ())
      (hr : s.round ≤ t.round) (hq : qc = t.highQc)
  | assembled (v : Vote C) (a : Aggregator C) (hv : HasVote env G s v)
      (hok : v.verify env.committee = .ok ()) (hr : s.round ≤ v.round)
      (ha : s.aggregator.addVote env.committee v = (a, .ok (some qc)))

/-- The QCs that an elementary step processes. -/
theorem Act.new_qcs (h : Act env G s s') : ∃ l, s'.trace = s.trace ++ l ∧
    ∀ qc r, .processQc qc r ∈ l → r = s.round ∧ QcOrigin env G s qc := by
  cases h with
  | accept io b hb hc =>
    refine ⟨[.accept b] ++ qcTrace s.round b.qc, by simp [processQc_trace], fun qc r hq => ?_⟩
    obtain ⟨rfl, rfl⟩ := mem_qcTrace ((List.mem_append.mp hq).resolve_left (by simp))
    exact ⟨rfl, .proposal b hb hc rfl⟩
  | assembleQc io v a qc' hv hok hr ha =>
    refine ⟨_, processQc_trace _ _ _, fun qc r hq => ?_⟩
    obtain ⟨rfl, rfl⟩ := mem_qcTrace hq
    exact ⟨rfl, .assembled v a hv hok hr ha⟩
  | hearTimeout io t ht hok hr =>
    refine ⟨_, processQc_trace _ _ _, fun qc r hq => ?_⟩
    obtain ⟨rfl, rfl⟩ := mem_qcTrace hq
    exact ⟨rfl, .timeout t ht hok hr rfl⟩
  | acceptTc | hearTc =>
    exact ⟨_, advanceRound_trace _ _ _, fun _ _ hq => absurd hq (not_mem_moved (by simp))⟩
  | assembleTc io t a tc =>
    refine ⟨_, by rw [emit_trace, advanceRound_trace, List.append_assoc], fun qc r hq => ?_⟩
    exact absurd ((List.mem_append.mp hq).resolve_right (by simp)) (not_mem_moved (by simp))
  | countVote | countTimeout => exact ⟨[], by simp, by simp⟩
  | make | timeout | suspend | stuck | vote | sendVote => exact ⟨_, rfl, by simp⟩
  | wait | store | commit => exact ⟨_, List.append_assoc _ _ _, by simp⟩
  | deliver => exact ⟨_, rfl, by simp⟩

theorem Act.processQc_cases (h : Act env G s s') {qc : QC C} {r : Round}
    (hq : .processQc qc r ∈ s'.trace) :
    .processQc qc r ∈ s.trace ∨ (r = s.round ∧ QcOrigin env G s qc) := by
  obtain ⟨l, hl, hnew⟩ := Act.new_qcs h
  rw [hl] at hq
  exact (List.mem_append.mp hq).imp_right (hnew qc r)

theorem Act.tc_cases (h : Act env G s s') {tc : TC C} (htc : .tc tc ∈ s'.trace) :
    .tc tc ∈ s.trace ∨ ∃ t a, HasTimeout G s t ∧ t.verify env.committee = .ok () ∧
      t.highQc.round ≤ s.highQc.round ∧
      s.aggregator.addTimeout env.committee t = (a, .ok (some tc)) := by
  cases h with
  | accept io b =>
    rw [processQc_trace] at htc
    exact .inl (by simpa using (List.mem_append.mp htc).resolve_right tc_not_mem_qcTrace)
  | assembleQc | hearTimeout =>
    rw [processQc_trace] at htc
    exact .inl ((List.mem_append.mp htc).resolve_right tc_not_mem_qcTrace)
  | acceptTc | hearTc =>
    rw [advanceRound_trace] at htc
    exact .inl ((List.mem_append.mp htc).resolve_right (not_mem_moved (by simp)))
  | assembleTc io t a tc' ht hok hq ha =>
    rw [emit_trace, advanceRound_trace] at htc
    rcases List.mem_append.mp htc with htc | htc
    · exact .inl ((List.mem_append.mp htc).resolve_right (not_mem_moved (by simp)))
    · cases List.mem_singleton.mp htc
      exact .inr ⟨t, a, ht, hok, hq, ha⟩
  | countVote | countTimeout => exact .inl htc
  | make | timeout | wait | suspend | stuck | store | commit | deliver | vote | sendVote =>
    exact .inl (by simpa [generateProposal, increaseLastVotedRound] using htc)

/-- The TC of a proposal was assembled or received. -/
theorem Act.make_tc_cases (h : Act env G s s') {r : Round} {qc : QC C} {tc : TC C}
    (hm : .make r qc (some tc) ∈ s'.trace) : .make r qc (some tc) ∈ s.trace ∨
      .tc tc ∈ s.trace ∨ (G.tc tc ∧ tc.verify env.committee = .ok ()) := by
  obtain ⟨l, hl, ho⟩ := Act.origin h
  rw [hl] at hm
  rcases List.mem_append.mp hm with hm | hm
  · exact .inl hm
  · have hj : Justified env G s (some tc) := (ho _ hm).2.2.2.2
    exact .inr (hj.imp (fun h => h.1) fun h => ⟨h.1, h.2.1⟩)

section Aggregator

variable {V : Round → C.Digest → C.PublicKey × C.Signature → Prop}
  {W : Round → C.PublicKey × C.Signature × Round → Prop}

theorem advanceRound_aggregator_ok {io : Io C} {r : Round} (h : s.aggregator.Ok env.committee V W) :
    (advanceRound io s r).aggregator.Ok env.committee V W :=
  cleanup_advanceRound (F := fun _ a => a.Ok env.committee V W) (fun _ _ _ h => h.cleanup _) r h

theorem processQc_aggregator_ok {io : Io C} {qc : QC C} (h : s.aggregator.Ok env.committee V W) :
    (processQc io s qc).aggregator.Ok env.committee V W :=
  cleanup_processQc (F := fun _ a => a.Ok env.committee V W) (fun _ _ _ h => h.cleanup _) qc h

/-- **What is counted has the properties asked of it.** -/
theorem Act.aggregator_ok (h : Act env G s s') (hs : s.aggregator.Ok env.committee V W)
    (hV : ∀ v, HasVote env G s v → v.verify env.committee = .ok () →
      V v.round v.digest (v.author, v.signature))
    (hW : ∀ t, HasTimeout G s t → t.verify env.committee = .ok () →
      t.highQc.round ≤ s.highQc.round → W t.round (t.author, t.signature, t.highQc.round)) :
    s'.aggregator.Ok env.committee V W := by
  cases h with
  | accept => exact processQc_aggregator_ok hs
  | assembleQc io v a qc hv hok hr ha =>
    exact processQc_aggregator_ok (s := { s with aggregator := a })
      (addVote_ok hs (hV v hv hok) (stake_pos_mem _ (Vote.verify_ok hok).1) ha).1
  | hearTimeout => exact processQc_aggregator_ok hs
  | acceptTc | hearTc => exact advanceRound_aggregator_ok hs
  | assembleTc io t a tc ht hok hq ha =>
    exact advanceRound_aggregator_ok (s := { s with aggregator := a })
      (addTimeout_ok hs (hW t ht hok hq) (stake_pos_mem _ (Timeout.verify_ok hok).1) ha).1
  | countVote v a r hv hok hr ha =>
    exact (addVote_ok hs (hV v hv hok) (stake_pos_mem _ (Vote.verify_ok hok).1) ha).1
  | countTimeout t a r ht hok hq ha =>
    exact (addTimeout_ok hs (hW t ht hok hq) (stake_pos_mem _ (Timeout.verify_ok hok).1) ha).1
  | _ => exact hs

end Aggregator

end Hotstuff.Consensus.Certificates
