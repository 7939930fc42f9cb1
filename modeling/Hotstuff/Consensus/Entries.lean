import Hotstuff.Consensus.Steps

/-! # What the trace says

`Entry env s a` is what the entry `a` of the trace says about the core that made it and about the
state `s` it is in by now. It is proved of the new entries of each elementary step and stays true as
the core moves on (`Entry.mono`), so it holds of every entry of every reachable trace. -/

namespace Hotstuff.Consensus.Entries

open Hotstuff.Primitives Hotstuff.Consensus.Config Hotstuff.Consensus.Messages
open Hotstuff.Consensus.Aggregation Hotstuff.Consensus.Pacing Hotstuff.Consensus.Handlers
open Hotstuff.Consensus.Steps

variable {C : Crypto} {T : Type}

def Entry (env : Env C) (s : Core C T) : Action C → Prop
  | .accept b => Checked env b ∧ ∃ r, .processQc b.qc r ∈ s.trace
  | .processQc qc _ => qc.round ≤ s.highQc.round
  | .wait missing b => .accept b ∈ s.trace ∧ ∀ d ∈ b.payload, d ∈ missing ∨ s.store.Has d
  | .store b => Accepted s b.qc
  | .cleanup _ _ b => .store b ∈ s.trace
  | .commit _ b0 => ∃ b1 b, .cleanup b0 b1 b ∈ s.trace ∧ b0.round + 1 = b1.round
  | .vote b => .store b ∈ s.trace ∧ b.round ≤ s.lastVotedRound ∧ safetyRule2 b = .ok true
  | .sendVote v _ => ∃ b, .vote b ∈ s.trace ∧ v = Vote.new b env.name
  | .timeout t =>
    t = Timeout.new t.highQc t.round env.name ∧ t.round ≤ s.lastVotedRound ∧ Accepted s t.highQc
  | .make round qc _ => Accepted s qc ∧ getLeader env.committee round = some env.name
  | _ => True

variable [RoundTimer T] {env : Env C} {G : Guard C} {s s' : Core C T}

/-! ### What only grows -/

theorem Act.highQc_le (h : Act env G s s') : s.highQc.round ≤ s'.highQc.round := by
  cases h with
  | accept io b => exact highQc_le_processQc (s.emit (.accept b)) io b.qc
  | assembleQc io v a qc => exact highQc_le_processQc { s with aggregator := a } io qc
  | hearTimeout io t => exact highQc_le_processQc s io t.highQc
  | acceptTc | assembleTc | hearTc =>
    simp only [emit_highQc, advanceRound_highQc]
    exact UInt64.le_refl _
  | _ => exact UInt64.le_refl _

theorem Act.lastVotedRound_le (h : Act env G s s') : s.lastVotedRound ≤ s'.lastVotedRound := by
  cases h with
  | timeout io => exact le_max_left _ _
  | vote b => exact le_max_left _ _
  | accept | acceptTc | assembleQc | hearTimeout | assembleTc | hearTc =>
    simp only [emit_lastVotedRound, advanceRound_lastVotedRound, processQc_lastVotedRound]
    exact UInt64.le_refl _
  | _ => exact UInt64.le_refl _

theorem Acts.highQc_le (h : Acts env G s s') : s.highQc.round ≤ s'.highQc.round := by
  induction h with
  | refl => exact UInt64.le_refl _
  | tail _ h ih => exact UInt64.le_trans ih (Act.highQc_le h)

theorem Acts.lastVotedRound_le (h : Acts env G s s') : s.lastVotedRound ≤ s'.lastVotedRound := by
  induction h with
  | refl => exact UInt64.le_refl _
  | tail _ h ih => exact UInt64.le_trans ih (Act.lastVotedRound_le h)

omit [RoundTimer T] in
theorem Store.Has.mono {st st' : Store C} (h : st ⊆ st') {d : C.Digest} (hd : st.Has d) :
    st'.Has d :=
  hd.imp fun _ hv => h hv

/-- The parts of the state on which `Entry` depends only grow. -/
structure Grows (s s' : Core C T) : Prop where
  trace : s.trace ⊆ s'.trace
  store : s.store ⊆ s'.store
  highQc : s.highQc.round ≤ s'.highQc.round
  lastVotedRound : s.lastVotedRound ≤ s'.lastVotedRound

omit [RoundTimer T] in
theorem Grows.refl (s : Core C T) : Grows s s :=
  ⟨List.Subset.refl _, List.Subset.refl _, UInt64.le_refl _, UInt64.le_refl _⟩

omit [RoundTimer T] in
theorem Grows.trans {s₁ s₂ s₃ : Core C T} (h : Grows s₁ s₂) (h' : Grows s₂ s₃) : Grows s₁ s₃ :=
  ⟨List.Subset.trans h.trace h'.trace, List.Subset.trans h.store h'.store,
    UInt64.le_trans h.highQc h'.highQc, UInt64.le_trans h.lastVotedRound h'.lastVotedRound⟩

theorem Act.grows (h : Act env G s s') : Grows s s' :=
  ⟨fun _ ha => Acts.mem (.single h) ha, h.store_subset, Act.highQc_le h, Act.lastVotedRound_le h⟩

omit [RoundTimer T] in
theorem accepted_grows (h : Grows s s') {qc : QC C} (hq : Accepted s qc) : Accepted s' qc :=
  hq.imp_right fun ⟨r, hr⟩ => ⟨r, h.trace hr⟩

omit [RoundTimer T] in
theorem Entry.mono (h : Grows s s') {a : Action C} (ha : Entry env s a) : Entry env s' a := by
  cases a with
  | accept b => exact ⟨ha.1, ha.2.imp fun _ hr => h.trace hr⟩
  | processQc qc r => exact UInt64.le_trans ha h.highQc
  | wait missing b =>
    exact ⟨h.trace ha.1, fun d hd => (ha.2 d hd).imp_right (Store.Has.mono h.store)⟩
  | store b => exact accepted_grows h ha
  | cleanup b0 b1 b => exact h.trace ha
  | commit last b0 =>
    obtain ⟨b1, b, hb, hr⟩ := ha
    exact ⟨b1, b, h.trace hb, hr⟩
  | vote b => exact ⟨h.trace ha.1, UInt64.le_trans ha.2.1 h.lastVotedRound, ha.2.2⟩
  | sendVote v dest =>
    obtain ⟨b, hb, hv⟩ := ha
    exact ⟨b, h.trace hb, hv⟩
  | timeout t =>
    exact ⟨ha.1, UInt64.le_trans ha.2.1 h.lastVotedRound, accepted_grows h ha.2.2⟩
  | make r qc tc => exact ⟨accepted_grows h ha.1, ha.2⟩
  | moved | synchronize | suspend | gc | deliver | tc => trivial

/-! ### The invariant -/

/-- The invariant of the core. -/
structure Ok (env : Env C) (s : Core C T) : Prop where
  entry : ∀ a ∈ s.trace, Entry env s a
  highQc : Accepted s s.highQc

/-- The new entries of an elementary step. -/
theorem Act.new (h : Act env G s s') (hq : Accepted s s.highQc) :
    ∃ l, s'.trace = s.trace ++ l ∧ ∀ a ∈ l, Entry env s' a := by
  obtain ⟨l, hl, ho⟩ := Act.origin h
  have hg := Act.grows h
  have hin : ∀ a ∈ l, a ∈ s'.trace := fun a ha => by
    rw [hl]
    exact List.mem_append_right _ ha
  refine ⟨l, hl, fun a ha => ?_⟩
  have hoa := ho a ha
  cases a with
  | accept b => exact ⟨hoa.2.1, s.round, hoa.2.2⟩
  | processQc qc r => exact hoa.2
  | wait missing b =>
    exact ⟨hg.trace hoa.1, fun d hd => (hoa.2.2 d hd).imp_right (Store.Has.mono hg.store)⟩
  | store b => exact accepted_grows hg hoa.1.2.2
  | cleanup b0 b1 b => exact hoa.1
  | commit last b0 =>
    obtain ⟨-, b1, b, hcl, hr⟩ := hoa
    exact ⟨b1, b, hg.trace hcl, hr⟩
  | vote b => exact ⟨hg.trace hoa.1, hoa.2.2.2.2.1, hoa.2.2.2.2.2⟩
  | sendVote v dest =>
    obtain ⟨b, hb, hv⟩ := hoa
    exact ⟨b, hg.trace hb, hv⟩
  | timeout t =>
    obtain ⟨ht, hr⟩ := hoa
    refine ⟨by rw [ht]; rfl, hr, ?_⟩
    rw [ht]
    exact accepted_grows hg hq
  | make r qc tc =>
    obtain ⟨rfl, rfl, hl, -⟩ := hoa
    exact ⟨accepted_grows hg hq, hl⟩
  | moved | synchronize | suspend | gc | deliver | tc => trivial

theorem accepted_processQc (io : Io C) (qc : QC C) (hq : Accepted s s.highQc) :
    Accepted (processQc io s qc) (processQc io s qc).highQc := by
  rw [processQc_highQc]
  split_ifs
  · exact .inr ⟨_, mem_processQc s io qc⟩
  · refine hq.imp_right fun ⟨r, hr⟩ => ⟨r, ?_⟩
    rw [processQc_trace]
    exact List.mem_append_left _ hr

/-- **An elementary step keeps the invariant of the core.** -/
theorem Act.ok (h : Act env G s s') (hs : Ok env s) : Ok env s' := by
  have hold := accepted_grows (Act.grows h) hs.highQc
  refine ⟨fun a ha => ?_, ?_⟩
  · obtain ⟨l, hl, hnew⟩ := Act.new h hs.highQc
    rw [hl] at ha
    rcases List.mem_append.mp ha with ha | ha
    · exact (hs.entry a ha).mono (Act.grows h)
    · exact hnew a ha
  cases h with
  | accept io b =>
    exact accepted_processQc io b.qc (hs.highQc.imp_right fun ⟨r, hr⟩ => ⟨r, mem_emit hr⟩)
  | assembleQc io v a qc =>
    exact accepted_processQc (s := { s with aggregator := a }) io qc hs.highQc
  | hearTimeout io t => exact accepted_processQc io t.highQc hs.highQc
  | acceptTc | assembleTc | hearTc =>
    simp only [emit_highQc, advanceRound_highQc]
    exact hold
  | _ => exact hold

theorem Acts.ok (h : Acts env G s s') (hs : Ok env s) : Ok env s' := by
  induction h with
  | refl => exact hs
  | tail _ h ih => exact Act.ok h ih

/-! ### New entries -/

/-- What an entry says about the event that made it. -/
def Fresh (G : Guard C) (s : Core C T) : Action C → Prop
  | .accept b => G.proposal b
  | .store b => G.block b ∧ (s.store.Has b.digest ∨ G.lost b.digest)
  | .vote b => G.block b
  | .suspend b => G.panics ∨ Admitted G s b
  | _ => True

theorem Act.fresh (h : Act env G s s') : ∃ l, s'.trace = s.trace ++ l ∧ ∀ a ∈ l, Fresh G s' a := by
  obtain ⟨l, hl, ho⟩ := Act.origin h
  refine ⟨l, hl, fun a ha => ?_⟩
  have hoa := ho a ha
  cases a with
  | accept b => exact hoa.1
  | store b => exact ⟨hoa.1.1, hoa.2⟩
  | vote b => exact hoa.2.1
  | suspend b => exact hoa.symm.imp_right (Admitted.mono (.single h))
  | _ => trivial

omit [RoundTimer T] in
theorem Fresh.mono (h : Grows s s') {a : Action C} (ha : Fresh G s a) : Fresh G s' a := by
  cases a with
  | store b => exact ha.imp_right fun hb => hb.imp_left (Store.Has.mono h.store)
  | suspend b =>
    exact ha.imp_right fun hb => ⟨hb.1, hb.2.1.imp_left fun hb => h.trace hb,
      accepted_grows h hb.2.2⟩
  | _ => exact ha

/-- **The new entries of an event.** -/
theorem Acts.fresh (h : Acts env G s s') :
    ∃ l, s'.trace = s.trace ++ l ∧ ∀ a ∈ l, Fresh G s' a := by
  induction h with
  | refl => exact ⟨[], by simp, by simp⟩
  | tail _ h ih =>
    obtain ⟨l, hl, hnew⟩ := ih
    obtain ⟨l', hl', hnew'⟩ := Act.fresh h
    refine ⟨l ++ l', by rw [hl', hl, List.append_assoc], fun a ha => ?_⟩
    rcases List.mem_append.mp ha with ha | ha
    · exact (hnew a ha).mono (Act.grows h)
    · exact hnew' a ha

theorem Acts.grows (h : Acts env G s s') : Grows s s' :=
  ⟨fun _ ha => h.mem ha, h.store_subset, Acts.highQc_le h, Acts.lastVotedRound_le h⟩

end Hotstuff.Consensus.Entries
