import Hotstuff.Consensus.Admission
import Hotstuff.Consensus.Certificates

/-! # What is behind a certificate

Suppose that the verified messages are evidence of what authorities signed (`Delivers`), for some
`sig`, of which nothing else is assumed here. Then so is everything that the core makes of them
(`Attested`): the entries of its makers, the QCs it processes, the TCs of the proposals it accepts
and stores, and those it sends. -/

namespace Hotstuff.Consensus.Evidence

open Hotstuff.Primitives Hotstuff.Consensus.Config Hotstuff.Consensus.Messages
open Hotstuff.Consensus.Aggregation Hotstuff.Consensus.Pacing Hotstuff.Consensus.Handlers
open Hotstuff.Consensus.Steps Hotstuff.Consensus.Entries Hotstuff.Consensus.Certificates
open Hotstuff.Consensus.Admission

variable {C : Crypto} {T : Type}

/-- The signers of the QC are a quorum, and signed it. -/
def QcSigned (c : Committee C) (sig : C.PublicKey → C.Digest → Prop) (qc : QC C) : Prop :=
  c.Quorum (qc.votes.map Prod.fst).toFinset ∧ ∀ v ∈ qc.votes, sig v.1 qc.digest

/-- The QC is the first one, or signed by a quorum; its signatures are genuine. -/
structure QcKnown (c : Committee C) (sig : C.PublicKey → C.Digest → Prop) (qc : QC C) : Prop where
  genuine : ∀ v ∈ qc.votes, C.verify v.2 qc.digest v.1 = true → sig v.1 qc.digest
  quorum : qc.IsGenesis ∨ QcSigned c sig qc

/-- The signers of the TC are a quorum, and signed the timeouts that it reports. -/
def TcSigned (c : Committee C) (sig : C.PublicKey → C.Digest → Prop) (tc : TC C) : Prop :=
  c.Quorum (tc.votes.map Prod.fst).toFinset ∧ ∀ v ∈ tc.votes, sig v.1 (timeoutDigest tc.round v.2.2)

/-- What the core makes of the evidence it has. -/
structure Attested (env : Env C) (sig : C.PublicKey → C.Digest → Prop) (s : Core C T) : Prop where
  aggregator : s.aggregator.Ok env.committee (fun _ d v => sig v.1 d)
    fun r v => sig v.1 (timeoutDigest r v.2.2)
  qc : ∀ qc r, .processQc qc r ∈ s.trace → QcKnown env.committee sig qc
  accept : ∀ b tc, .accept b ∈ s.trace → b.tc = some tc → TcSigned env.committee sig tc
  store : ∀ b tc, .store b ∈ s.trace → b.tc = some tc → TcSigned env.committee sig tc
  tc : ∀ tc, .tc tc ∈ s.trace → TcSigned env.committee sig tc
  make : ∀ r qc tc, .make r qc (some tc) ∈ s.trace → TcSigned env.committee sig tc

/-- The evidence that an event brings. -/
structure Delivers (env : Env C) (sig : C.PublicKey → C.Digest → Prop) (G : Guard C) : Prop where
  proposal : ∀ b, G.proposal b → b.verify env.committee = .ok () →
    QcKnown env.committee sig b.qc ∧ ∀ tc, b.tc = some tc → TcSigned env.committee sig tc
  vote : ∀ v, G.vote v → v.verify env.committee = .ok () → sig v.author v.digest
  timeout : ∀ t, G.timeout t → t.verify env.committee = .ok () →
    sig t.author t.digest ∧ QcKnown env.committee sig t.highQc
  tc : ∀ tc, G.tc tc → tc.verify env.committee = .ok () → TcSigned env.committee sig tc
  own : ∀ b tc, G.own b → b.tc = some tc → TcSigned env.committee sig tc

section Mono

variable {c : Committee C} {env : Env C} {G : Guard C} {sig sig' : C.PublicKey → C.Digest → Prop}
  {s : Core C T} {qc : QC C} {tc : TC C} (hs : ∀ k d, sig k d → sig' k d)
include hs

theorem QcSigned.mono (h : QcSigned c sig qc) : QcSigned c sig' qc :=
  ⟨h.1, fun v hv => hs _ _ (h.2 v hv)⟩

theorem TcSigned.mono (h : TcSigned c sig tc) : TcSigned c sig' tc :=
  ⟨h.1, fun v hv => hs _ _ (h.2 v hv)⟩

theorem QcKnown.mono (h : QcKnown c sig qc) : QcKnown c sig' qc :=
  ⟨fun v hv hok => hs _ _ (h.genuine v hv hok), h.quorum.imp_right (QcSigned.mono hs)⟩

theorem Attested.mono (h : Attested env sig s) : Attested env sig' s :=
  ⟨h.aggregator.mono (fun _ _ _ => hs _ _) fun _ _ => hs _ _,
    fun qc r hm => (h.qc qc r hm).mono hs, fun b tc hm htc => (h.accept b tc hm htc).mono hs,
    fun b tc hm htc => (h.store b tc hm htc).mono hs, fun tc hm => (h.tc tc hm).mono hs,
    fun r qc tc hm => (h.make r qc tc hm).mono hs⟩

theorem Delivers.mono (h : Delivers env sig G) : Delivers env sig' G :=
  ⟨fun b hb hok => ⟨(h.proposal b hb hok).1.mono hs, fun tc htc =>
      ((h.proposal b hb hok).2 tc htc).mono hs⟩,
    fun v hv hok => hs _ _ (h.vote v hv hok),
    fun t ht hok => ⟨hs _ _ (h.timeout t ht hok).1, (h.timeout t ht hok).2.mono hs⟩,
    fun tc htc hok => (h.tc tc htc hok).mono hs,
    fun b tc hb htc => (h.own b tc hb htc).mono hs⟩

end Mono

theorem qcKnown_genesis {c : Committee C} {sig : C.PublicKey → C.Digest → Prop} :
    QcKnown c sig QC.genesis :=
  ⟨by simp [QC.genesis], .inl ⟨rfl, rfl⟩⟩

variable [RoundTimer T] {env : Env C} {sig : C.PublicKey → C.Digest → Prop} {G : Guard C}
  {s s' : Core C T}

/-- What the node itself signs is evidence too. -/
structure Signs (env : Env C) (sig : C.PublicKey → C.Digest → Prop) (s : Core C T) : Prop where
  vote : ∀ b, .vote b ∈ s.trace → sig env.name (voteDigest b.digest b.round)
  timeout : ∀ t, .timeout t ∈ s.trace → sig env.name t.digest

section Act

variable (hok : Entries.Ok env s) (hG : Delivers env sig G) (hself : Signs env sig s)
  (hs : Attested env sig s)

omit [RoundTimer T] in
include hG hself in
theorem sig_of_vote {v : Vote C} (hv : HasVote env G s v) (hver : v.verify env.committee = .ok ()) :
    sig v.author v.digest := by
  rcases hv with hv | ⟨b, hb, rfl⟩
  · exact hG.vote v hv hver
  · exact hself.vote b hb

omit [RoundTimer T] in
include hok hG hself hs in
theorem sig_of_timeout {t : Timeout C} (ht : HasTimeout G s t)
    (hver : t.verify env.committee = .ok ()) :
    sig t.author t.digest ∧ QcKnown env.committee sig t.highQc := by
  rcases ht with ht | ⟨-, ht⟩
  · exact hG.timeout t ht hver
  · obtain ⟨heq, -, hq⟩ := hok.entry _ ht
    refine ⟨?_, ?_⟩
    · rw [show t.author = env.name by rw [heq]; rfl]
      exact hself.timeout t ht
    · rcases hq with hg | ⟨r, hr⟩
      · rw [hg]; exact qcKnown_genesis
      · exact hs.qc _ r hr

include hok hG hself hs in
/-- **An elementary step makes evidence of evidence.** -/
theorem Act.attested (h : Act env G s s') : Attested env sig s' := by
  have hold : ∀ {v : Vote C}, HasVote env G s v → v.verify env.committee = .ok () →
      sig v.author v.digest := sig_of_vote hG hself
  have hto : ∀ {t : Timeout C}, HasTimeout G s t → t.verify env.committee = .ok () → _ :=
    sig_of_timeout hok hG hself hs
  obtain ⟨l, hl, hfresh⟩ := Act.fresh h
  refine ⟨?_, fun qc r hm => ?_, fun b tc hm htc => ?_, fun b tc hm htc => ?_, fun tc hm => ?_,
    fun r qc tc hm => ?_⟩
  · exact Act.aggregator_ok h hs.aggregator (fun v hv hver => hold hv hver)
      fun t ht hver _ => (hto ht hver).1
  · rcases Act.processQc_cases h hm with hm | ⟨-, ho⟩
    · exact hs.qc qc r hm
    cases ho with
    | proposal b hb hc hq => rw [hq]; exact (hG.proposal b hb hc.2).1
    | timeout t ht hver hr hq => rw [hq]; exact (hto ht hver).2
    | assembled v a hv hver hr ha =>
      obtain ⟨hsig, hw⟩ := (addVote_ok hs.aggregator (hold hv hver)
        (stake_pos_mem _ (Vote.verify_ok hver).1) ha).2 qc rfl
      obtain ⟨hh, hround⟩ := addVote_qc ha
      have hdig : v.digest = qc.digest := by unfold Vote.digest QC.digest; rw [hh, hround]
      have hall : ∀ x ∈ qc.votes, sig x.1 qc.digest := fun x hx => hdig ▸ hsig.entry x hx
      exact ⟨fun x hx _ => hall x hx, .inr ⟨hsig.quorum hw, hall⟩⟩
  · rw [hl] at hm
    rcases List.mem_append.mp hm with hm | hm
    · exact hs.accept b tc hm htc
    · have hin : .accept b ∈ s'.trace := by rw [hl]; exact List.mem_append_right _ hm
      have hchecked : Checked env b := ((Act.ok h hok).entry _ hin).1
      exact (hG.proposal b (hfresh _ hm) hchecked.2).2 tc htc
  · rcases Act.store_cases h with ⟨io, b', b0, b1, rfl, hadm, -⟩ | ⟨-, l', hl', hu⟩
    · have hcases : Action.store b ∈ s.trace ∨ b = b' := by simpa using hm
      rcases hcases with hm | rfl
      · exact hs.store b tc hm htc
      · exact hadm.2.1.elim (fun hb => hs.accept b tc hb htc) fun hb => hG.own b tc hb htc
    · exact hs.store b tc (mem_of_unstored hu (hl' ▸ hm) id) htc
  · rcases Act.tc_cases h hm with hm | ⟨t, a, ht, hver, -, ha⟩
    · exact hs.tc tc hm
    · obtain ⟨hsig, hw, -⟩ := (addTimeout_ok hs.aggregator (hto ht hver).1
        (stake_pos_mem _ (Timeout.verify_ok hver).1) ha).2 tc rfl
      refine ⟨hsig.quorum hw, fun x hx => ?_⟩
      rw [addTimeout_tc ha]
      exact hsig.entry x hx
  · rcases Act.make_tc_cases h hm with hm | hm | ⟨htc, hver⟩
    · exact hs.make r qc tc hm
    · exact hs.tc tc hm
    · exact hG.tc tc htc hver

end Act

end Hotstuff.Consensus.Evidence
