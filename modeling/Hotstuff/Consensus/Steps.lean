import Hotstuff.Consensus.Handlers

/-! # The elementary steps of the core

Every handler is a sequence of the elementary steps of `Act`, each with the condition under which
the handlers take it (`handleMessage_acts`, `processBlock_acts`, `localTimeoutRound_acts`). An
invariant of the core is proved once for each elementary step; which handler took it, and by which
branch, no longer matters.

What an event brings from outside is in `Guard`: the message delivered, the block taken from the
loopback channel. -/

namespace Hotstuff.Consensus.Steps

open Hotstuff.Primitives Hotstuff.Consensus.Config Hotstuff.Consensus.Messages
open Hotstuff.Consensus.Aggregation Hotstuff.Consensus.Pacing Hotstuff.Consensus.Handlers
open Hotstuff.Lib.Lists (mem_of_lookup)

variable {C : Crypto} {T : Type}

/-! ### What the handlers change -/

section Fields

variable (s : Core C T)

@[simp] theorem emit_round (a : Action C) : (s.emit a).round = s.round := rfl
@[simp] theorem emit_lastVotedRound (a : Action C) :
    (s.emit a).lastVotedRound = s.lastVotedRound := rfl
@[simp] theorem emit_lastCommittedRound (a : Action C) :
    (s.emit a).lastCommittedRound = s.lastCommittedRound := rfl
@[simp] theorem emit_highQc (a : Action C) : (s.emit a).highQc = s.highQc := rfl
@[simp] theorem emit_timer (a : Action C) : (s.emit a).timer = s.timer := rfl
@[simp] theorem emit_aggregator (a : Action C) : (s.emit a).aggregator = s.aggregator := rfl
@[simp] theorem emit_store (a : Action C) : (s.emit a).store = s.store := rfl
@[simp] theorem emit_trace (a : Action C) : (s.emit a).trace = s.trace ++ [a] := rfl

theorem mem_emit {s : Core C T} {a x : Action C} (h : x ∈ s.trace) : x ∈ (s.emit a).trace :=
  List.mem_append_left _ h

theorem mem_emit_self (s : Core C T) (a : Action C) : a ∈ (s.emit a).trace := by simp

theorem storeBlock_store (io : Io C) (b : Block C) : (storeBlock io s b).store =
    if io.writeFails b.digest then s.store else (b.digest, .block b) :: s.store := rfl

@[simp] theorem storeBlock_trace (io : Io C) (b : Block C) :
    (storeBlock io s b).trace = s.trace ++ [.store b] := rfl

theorem store_subset_storeBlock (io : Io C) (b : Block C) :
    s.store ⊆ (storeBlock io s b).store := by
  rw [storeBlock_store]
  split_ifs
  · exact List.Subset.refl _
  · exact List.subset_cons_self _ _

theorem updateHighQc_highQc (qc : QC C) :
    (updateHighQc s qc).highQc = if s.highQc.round < qc.round then qc else s.highQc := by
  unfold updateHighQc; split_ifs <;> rfl

@[simp] theorem updateHighQc_round (qc : QC C) : (updateHighQc s qc).round = s.round := by
  unfold updateHighQc; split_ifs <;> rfl

@[simp] theorem updateHighQc_lastVotedRound (qc : QC C) :
    (updateHighQc s qc).lastVotedRound = s.lastVotedRound := by
  unfold updateHighQc; split_ifs <;> rfl

@[simp] theorem updateHighQc_lastCommittedRound (qc : QC C) :
    (updateHighQc s qc).lastCommittedRound = s.lastCommittedRound := by
  unfold updateHighQc; split_ifs <;> rfl

@[simp] theorem updateHighQc_timer (qc : QC C) : (updateHighQc s qc).timer = s.timer := by
  unfold updateHighQc; split_ifs <;> rfl

@[simp] theorem updateHighQc_aggregator (qc : QC C) :
    (updateHighQc s qc).aggregator = s.aggregator := by
  unfold updateHighQc; split_ifs <;> rfl

@[simp] theorem updateHighQc_store (qc : QC C) : (updateHighQc s qc).store = s.store := by
  unfold updateHighQc; split_ifs <;> rfl

@[simp] theorem updateHighQc_trace (qc : QC C) : (updateHighQc s qc).trace = s.trace := by
  unfold updateHighQc; split_ifs <;> rfl

variable [RoundTimer T] (io : Io C)

theorem advanceRound_of_lt {r : Round} (h : r < s.round) : advanceRound io s r = s := if_pos h

theorem advanceRound_round (r : Round) :
    (advanceRound io s r).round = if r < s.round then s.round else r + 1 := by
  unfold advanceRound; split_ifs <;> rfl

theorem advanceRound_trace (r : Round) : (advanceRound io s r).trace =
    s.trace ++ if r < s.round then [] else [.moved (r + 1)] := by
  unfold advanceRound; split_ifs <;> simp

theorem advanceRound_aggregator (r : Round) : (advanceRound io s r).aggregator =
    if r < s.round then s.aggregator else s.aggregator.cleanup (r + 1) := by
  unfold advanceRound; split_ifs <;> rfl

@[simp] theorem advanceRound_lastVotedRound (r : Round) :
    (advanceRound io s r).lastVotedRound = s.lastVotedRound := by
  unfold advanceRound; split_ifs <;> rfl

@[simp] theorem advanceRound_lastCommittedRound (r : Round) :
    (advanceRound io s r).lastCommittedRound = s.lastCommittedRound := by
  unfold advanceRound; split_ifs <;> rfl

@[simp] theorem advanceRound_highQc (r : Round) : (advanceRound io s r).highQc = s.highQc := by
  unfold advanceRound; split_ifs <;> rfl

@[simp] theorem advanceRound_store (r : Round) : (advanceRound io s r).store = s.store := by
  unfold advanceRound; split_ifs <;> rfl

/-- The entries of `process_qc`: the call and, if the certificate is not of a past round, the move.
-/
def qcTrace (round : Round) (qc : QC C) : List (Action C) :=
  .processQc qc round :: if qc.round < round then [] else [.moved (qc.round + 1)]

theorem processQc_trace (qc : QC C) :
    (processQc io s qc).trace = s.trace ++ qcTrace s.round qc := by
  simp only [processQc, updateHighQc_trace, advanceRound_trace, emit_trace, emit_round, qcTrace,
    List.append_assoc]
  rfl

theorem processQc_round (qc : QC C) :
    (processQc io s qc).round = if qc.round < s.round then s.round else qc.round + 1 := by
  simp only [processQc, updateHighQc_round, advanceRound_round, emit_round]
  rfl

theorem processQc_highQc (qc : QC C) :
    (processQc io s qc).highQc = if s.highQc.round < qc.round then qc else s.highQc := by
  simp only [processQc, updateHighQc_highQc, advanceRound_highQc, emit_highQc]

theorem processQc_aggregator (qc : QC C) : (processQc io s qc).aggregator =
    if qc.round < s.round then s.aggregator else s.aggregator.cleanup (qc.round + 1) := by
  simp only [processQc, updateHighQc_aggregator, advanceRound_aggregator, emit_round,
    emit_aggregator]
  rfl

@[simp] theorem processQc_lastVotedRound (qc : QC C) :
    (processQc io s qc).lastVotedRound = s.lastVotedRound := by
  simp [processQc]

@[simp] theorem processQc_lastCommittedRound (qc : QC C) :
    (processQc io s qc).lastCommittedRound = s.lastCommittedRound := by
  simp [processQc]

@[simp] theorem processQc_store (qc : QC C) : (processQc io s qc).store = s.store := by
  simp [processQc]

theorem mem_processQc (qc : QC C) : .processQc qc s.round ∈ (processQc io s qc).trace := by
  simp [processQc_trace, qcTrace]

/-- The high QC is at least as high as the processed one. -/
theorem le_processQc_highQc (qc : QC C) : qc.round ≤ (processQc io s qc).highQc.round := by
  rw [processQc_highQc]; split_ifs <;> grind

theorem highQc_le_processQc (qc : QC C) : s.highQc.round ≤ (processQc io s qc).highQc.round := by
  rw [processQc_highQc]; split_ifs <;> grind

@[simp] theorem processCertificates_store (b : Block C) :
    (processCertificates io s b).store = s.store := by
  unfold processCertificates
  rcases b.tc with _ | tc <;> simp

@[simp] theorem processCertificates_lastCommittedRound (b : Block C) :
    (processCertificates io s b).lastCommittedRound = s.lastCommittedRound := by
  unfold processCertificates
  rcases b.tc with _ | tc <;> simp

section Cleanup

-- what holds of the makers in a round, and is kept when those below another round are dropped
variable {s io} {F : Round → Aggregator C → Prop}
  (hF : ∀ r r' (a : Aggregator C), F r a → F r' (a.cleanup r'))
include hF

theorem cleanup_advanceRound (r : Round) (h : F s.round s.aggregator) :
    F (advanceRound io s r).round (advanceRound io s r).aggregator := by
  rw [advanceRound_round, advanceRound_aggregator]
  split_ifs
  · exact h
  · exact hF _ _ _ h

theorem cleanup_processQc (qc : QC C) (h : F s.round s.aggregator) :
    F (processQc io s qc).round (processQc io s qc).aggregator := by
  rw [processQc_round, processQc_aggregator]
  split_ifs
  · exact h
  · exact hF _ _ _ h

end Cleanup

end Fields

/-! ### Parents and ancestors -/

/-- `p` is what `get_parent_block` finds for `b` in the store. -/
def Parent (env : Env C) (st : Store C) (b p : Block C) : Prop :=
  (b.qc.IsGenesis ∧ p = Block.genesis) ∨
    (¬ b.qc.IsGenesis ∧ ∃ v, st.lookup b.parent = some v ∧ env.deserialize v = some p)

/-- The ancestors of a block that the loop of `commit` gathers, in the order in which it does. -/
inductive Ancestors (env : Env C) (st : Store C) (last : Round) : Block C → List (Block C) → Prop
  | stop {b : Block C} (h : ¬ last + 1 < b.round) : Ancestors env st last b []
  | step {b a : Block C} {l : List (Block C)} (h : last + 1 < b.round) (hp : Parent env st b a)
      (r : Ancestors env st last a l) : Ancestors env st last b (a :: l)

/-! ### The steps -/

/-- What an event brings from outside. -/
structure Guard (C : Crypto) where
  proposal : Block C → Prop
  vote : Vote C → Prop
  timeout : Timeout C → Prop
  tc : TC C → Prop
  /-- The block may be passed to `process_block`. -/
  block : Block C → Prop
  /-- The block was made by the node's own proposer. -/
  own : Block C → Prop
  /-- The write of a block under this key fails. -/
  lost : C.Digest → Prop
  /-- The timer of the node expired. -/
  expires : Prop
  /-- The event ends with a panic. -/
  panics : Prop

/-- The QC has been processed, or is the first one. -/
def Accepted (s : Core C T) (qc : QC C) : Prop :=
  qc = QC.genesis ∨ ∃ r, Action.processQc qc r ∈ s.trace

theorem isGenesis_genesis : (QC.genesis : QC C).IsGenesis := ⟨rfl, rfl⟩

theorem processed_of_accepted {s : Core C T} {qc : QC C} (h : Accepted s qc)
    (hg : ¬ qc.IsGenesis) : ∃ r, Action.processQc qc r ∈ s.trace :=
  h.resolve_left fun h0 => hg (h0 ▸ isGenesis_genesis)

/-- The checks of `handle_proposal`. -/
def Checked (env : Env C) (b : Block C) : Prop :=
  getLeader env.committee b.round = some b.author ∧ b.verify env.committee = .ok ()

/-- The block may be processed: it was a proposal that passed the checks, or an own block. -/
def Admitted (G : Guard C) (s : Core C T) (b : Block C) : Prop :=
  G.block b ∧ (.accept b ∈ s.trace ∨ G.own b) ∧ Accepted s b.qc

/-- The vote was delivered, or is an own one. -/
def HasVote (env : Env C) (G : Guard C) (s : Core C T) (v : Vote C) : Prop :=
  G.vote v ∨ ∃ b, .vote b ∈ s.trace ∧ v = Vote.new b env.name

/-- The timeout was delivered, or is an own one. -/
def HasTimeout (G : Guard C) (s : Core C T) (t : Timeout C) : Prop :=
  G.timeout t ∨ (G.expires ∧ .timeout t ∈ s.trace)

/-- A processed QC is of the round before the current one. -/
def QcBefore (s : Core C T) : Prop :=
  ∃ qc r, Action.processQc qc r ∈ s.trace ∧ qc.round + 1 = s.round

/-- Nothing has been proposed since the node moved to its round. -/
def FreshRound (s : Core C T) : Prop :=
  ∃ l₁ l₂, s.trace = l₁ ++ .moved s.round :: l₂ ∧ ∀ r qc tc, Action.make r qc tc ∉ l₂

/-- The evidence with which a proposal is generated: an assembled QC; an assembled TC, after which
the round is that of the TC or a later one of a QC; a TC received. -/
def Justified (env : Env C) (G : Guard C) (s : Core C T) : Option (TC C) → Prop
  | none => QcBefore s
  | some tc =>
    (.tc tc ∈ s.trace ∧ (tc.round + 1 = s.round ∨ QcBefore s)) ∨
      (G.tc tc ∧ tc.verify env.committee = .ok () ∧ tc.round + 1 = s.round)

variable [RoundTimer T]

/-- An elementary step of the core. -/
inductive Act (env : Env C) (G : Guard C) : Core C T → Core C T → Prop
  | accept {s : Core C T} (io : Io C) (b : Block C) (hb : G.proposal b) (hc : Checked env b) :
      Act env G s (processQc io (s.emit (.accept b)) b.qc)
  | acceptTc {s : Core C T} (io : Io C) (b : Block C) (tc : TC C) (hb : .accept b ∈ s.trace)
      (htc : b.tc = some tc) : Act env G s (advanceRound io s tc.round)
  | countVote {s : Core C T} (v : Vote C) (a : Aggregator C)
      (r : Except (ConsensusError C) (Option (QC C))) (hv : HasVote env G s v)
      (hok : v.verify env.committee = .ok ()) (hr : s.round ≤ v.round)
      (ha : s.aggregator.addVote env.committee v = (a, r)) :
      Act env G s { s with aggregator := a }
  | assembleQc {s : Core C T} (io : Io C) (v : Vote C) (a : Aggregator C) (qc : QC C)
      (hv : HasVote env G s v) (hok : v.verify env.committee = .ok ()) (hr : s.round ≤ v.round)
      (ha : s.aggregator.addVote env.committee v = (a, .ok (some qc))) :
      Act env G s (processQc io { s with aggregator := a } qc)
  | hearTimeout {s : Core C T} (io : Io C) (t : Timeout C) (ht : HasTimeout G s t)
      (hok : t.verify env.committee = .ok ()) (hr : s.round ≤ t.round) :
      Act env G s (processQc io s t.highQc)
  | countTimeout {s : Core C T} (t : Timeout C) (a : Aggregator C)
      (r : Except (ConsensusError C) (Option (TC C))) (ht : HasTimeout G s t)
      (hok : t.verify env.committee = .ok ()) (hq : t.highQc.round ≤ s.highQc.round)
      (ha : s.aggregator.addTimeout env.committee t = (a, r)) :
      Act env G s { s with aggregator := a }
  | assembleTc {s : Core C T} (io : Io C) (t : Timeout C) (a : Aggregator C) (tc : TC C)
      (ht : HasTimeout G s t) (hok : t.verify env.committee = .ok ())
      (hq : t.highQc.round ≤ s.highQc.round)
      (ha : s.aggregator.addTimeout env.committee t = (a, .ok (some tc))) :
      Act env G s ((advanceRound io { s with aggregator := a } tc.round).emit (.tc tc))
  | hearTc {s : Core C T} (io : Io C) (tc : TC C) (htc : G.tc tc)
      (hok : tc.verify env.committee = .ok ()) : Act env G s (advanceRound io s tc.round)
  | make {s : Core C T} (tc : Option (TC C)) (hl : s.IsLeader env) (hf : FreshRound s)
      (hj : Justified env G s tc) : Act env G s (generateProposal s tc)
  | timeout {s : Core C T} (io : Io C) :
      Act env G s
        (Core.emit { increaseLastVotedRound s s.round with
            timer := RoundTimer.startRound io.now (RoundTimer.reset io.now s.timer) }
          (.timeout (Timeout.new s.highQc s.round env.name)))
  | wait {s : Core C T} (b : Block C) (missing : List C.Digest) (hb : .accept b ∈ s.trace)
      (hne : b.payload ≠ []) (hm : ∀ d ∈ b.payload, d ∈ missing ∨ s.store.Has d) :
      Act env G s ((s.emit (.synchronize missing b.author)).emit (.wait missing b))
  | suspend {s : Core C T} (b : Block C) (hb : Admitted G s b) : Act env G s (s.emit (.suspend b))
  | stuck {s : Core C T} (b : Block C) (h : G.panics) : Act env G s (s.emit (.suspend b))
  | store {s : Core C T} (io : Io C) (b b0 b1 : Block C) (hb : Admitted G s b)
      (h1 : Parent env s.store b b1) (h0 : Parent env s.store b1 b0)
      (hio : io.writeFails b.digest = true → G.lost b.digest) :
      Act env G s ((storeBlock io s b).emit (.cleanup b0 b1 b))
  | commit {s : Core C T} (b b0 b1 : Block C) (hb : .cleanup b0 b1 b ∈ s.trace)
      (hr : b0.round + 1 = b1.round) :
      Act env G s ((s.emit (.gc b0.round)).emit (.commit s.lastCommittedRound b0))
  | deliver {s : Core C T} (b : Block C) (l : List (Block C))
      (hc : .commit s.lastCommittedRound b ∈ s.trace) (hr : s.lastCommittedRound < b.round)
      (hl : Ancestors env s.store s.lastCommittedRound b l) :
      Act env G s { s with
        lastCommittedRound := b.round
        trace := s.trace ++ (l ++ [b]).map .deliver }
  | vote {s : Core C T} (b : Block C) (hb : .store b ∈ s.trace) (hG : G.block b)
      (hr : b.round = s.round)
      (hl : s.lastVotedRound < b.round) (hs : safetyRule2 b = .ok true) :
      Act env G s ((increaseLastVotedRound s b.round).emit (.vote b))
  | sendVote {s : Core C T} (b : Block C) (dest : C.PublicKey) (hb : .vote b ∈ s.trace) :
      Act env G s (s.emit (.sendVote (Vote.new b env.name) dest))

/-- A sequence of elementary steps. -/
abbrev Acts (env : Env C) (G : Guard C) : Core C T → Core C T → Prop :=
  Relation.ReflTransGen (Act env G)

variable {env : Env C} {G : Guard C} {s s' : Core C T}

/-- The trace only grows. -/
theorem Act.trace (h : Act env G s s') : ∃ l, s'.trace = s.trace ++ l := by
  cases h with
  | accept io b => exact ⟨_, by rw [processQc_trace, emit_trace, List.append_assoc]⟩
  | acceptTc io b tc => exact ⟨_, advanceRound_trace _ _ _⟩
  | countVote => exact ⟨[], by simp⟩
  | assembleQc io v a qc => exact ⟨_, processQc_trace _ _ _⟩
  | hearTimeout io t => exact ⟨_, processQc_trace _ _ _⟩
  | countTimeout => exact ⟨[], by simp⟩
  | assembleTc io t a tc => exact ⟨_, by rw [emit_trace, advanceRound_trace, List.append_assoc]⟩
  | hearTc io tc => exact ⟨_, advanceRound_trace _ _ _⟩
  | make | timeout | suspend | stuck | deliver | vote | sendVote => exact ⟨_, rfl⟩
  | wait | store | commit => exact ⟨_, List.append_assoc _ _ _⟩

theorem Acts.trace (h : Acts env G s s') : ∃ l, s'.trace = s.trace ++ l := by
  induction h with
  | refl => exact ⟨[], by simp⟩
  | tail _ h ih =>
    obtain ⟨l, hl⟩ := ih
    obtain ⟨l', hl'⟩ := h.trace
    exact ⟨l ++ l', by rw [hl', hl, List.append_assoc]⟩

theorem Acts.mem (h : Acts env G s s') {a : Action C} (ha : a ∈ s.trace) : a ∈ s'.trace := by
  obtain ⟨l, hl⟩ := h.trace
  rw [hl]; exact List.mem_append_left _ ha

/-! ### New entries -/

omit [RoundTimer T] in
theorem mem_moved {p : Prop} [Decidable p] {r : Round} {a : Action C} :
    a ∈ (if p then [] else [Action.moved r]) ↔ ¬ p ∧ a = .moved r := by
  split_ifs with h <;> simp [h]

omit [RoundTimer T] in
theorem mem_qcTrace_iff {r : Round} {qc : QC C} {a : Action C} : a ∈ qcTrace r qc ↔
    a = .processQc qc r ∨ (¬ qc.round < r ∧ a = .moved (qc.round + 1)) := by
  rw [qcTrace, List.mem_cons, mem_moved]

omit [RoundTimer T] in
theorem forall_mem_moved {p : Prop} [Decidable p] {r : Round} {P : Action C → Prop}
    (h : P (.moved r)) : ∀ a ∈ (if p then [] else [Action.moved r]), P a := by
  intro a ha
  rw [(mem_moved.mp ha).2]
  exact h

omit [RoundTimer T] in
/-- What holds of calls of `process_qc` and of moves holds of the entries of `process_qc`. -/
theorem forall_mem_qcTrace {r : Round} {qc : QC C} {P : Action C → Prop}
    (hq : P (.processQc qc r)) (hm : P (.moved (qc.round + 1))) : ∀ a ∈ qcTrace r qc, P a :=
  List.forall_mem_cons.mpr ⟨hq, forall_mem_moved hm⟩

/-- What a new entry says about the step that made it, from `s` to `s'`. -/
def Origin (env : Env C) (G : Guard C) (s s' : Core C T) : Action C → Prop
  | .accept b => G.proposal b ∧ Checked env b ∧ .processQc b.qc s.round ∈ s'.trace
  | .processQc qc r => r = s.round ∧ qc.round ≤ s'.highQc.round
  | .moved r => r = s'.round
  | .synchronize missing target => ∃ b, .wait missing b ∈ s'.trace ∧ target = b.author
  | .wait missing b => .accept b ∈ s.trace ∧ b.payload ≠ [] ∧
      ∀ d ∈ b.payload, d ∈ missing ∨ s.store.Has d
  | .suspend b => Admitted G s b ∨ G.panics
  | .store b => Admitted G s b ∧ (s'.store.Has b.digest ∨ G.lost b.digest)
  | .cleanup b0 b1 b => .store b ∈ s'.trace ∧ Admitted G s b ∧ Parent env s.store b b1 ∧
      Parent env s.store b1 b0
  | .gc r => ∃ b, .commit s.lastCommittedRound b ∈ s'.trace ∧ b.round = r
  | .commit last b0 => last = s.lastCommittedRound ∧
      ∃ b1 b, .cleanup b0 b1 b ∈ s.trace ∧ b0.round + 1 = b1.round
  | .deliver b => ∃ b' l, .commit s.lastCommittedRound b' ∈ s.trace ∧
      s.lastCommittedRound < b'.round ∧ Ancestors env s.store s.lastCommittedRound b' l ∧
      b ∈ l ++ [b']
  | .vote b => .store b ∈ s.trace ∧ G.block b ∧ b.round = s.round ∧ s.lastVotedRound < b.round ∧
      b.round ≤ s'.lastVotedRound ∧ safetyRule2 b = .ok true
  | .sendVote v _ => ∃ b, .vote b ∈ s.trace ∧ v = Vote.new b env.name
  | .timeout t => t = Timeout.new s.highQc s.round env.name ∧ t.round ≤ s'.lastVotedRound
  | .tc _ => True
  | .make r qc tc => r = s.round ∧ qc = s.highQc ∧ s.IsLeader env ∧ FreshRound s ∧
      Justified env G s tc

theorem origin_advanceRound (io : Io C) (r : Round) :
    ∀ a ∈ (if r < s.round then [] else [Action.moved (r + 1)]),
      Origin env G s (advanceRound io s r) a := by
  intro a ha
  obtain ⟨hr, rfl⟩ := mem_moved.mp ha
  exact (by rw [advanceRound_round, if_neg hr] : r + 1 = (advanceRound io s r).round)

theorem origin_processQc (io : Io C) (qc : QC C) :
    ∀ a ∈ qcTrace s.round qc, Origin env G s (processQc io s qc) a := by
  intro a ha
  rcases mem_qcTrace_iff.mp ha with rfl | ⟨hr, rfl⟩
  · exact ⟨rfl, le_processQc_highQc s io qc⟩
  · exact (by rw [processQc_round, if_neg hr] : qc.round + 1 = (processQc io s qc).round)

/-- **Where the new entries of an elementary step come from.** -/
theorem Act.origin (h : Act env G s s') :
    ∃ l, s'.trace = s.trace ++ l ∧ ∀ a ∈ l, Origin env G s s' a := by
  cases h with
  | accept io b hb hc =>
    refine ⟨.accept b :: qcTrace s.round b.qc, by simp [processQc_trace], ?_⟩
    refine List.forall_mem_cons.mpr ⟨⟨hb, hc, mem_processQc (s.emit (.accept b)) io b.qc⟩, ?_⟩
    intro a ha
    rcases mem_qcTrace_iff.mp ha with rfl | ⟨hr, rfl⟩
    · exact ⟨rfl, le_processQc_highQc _ io b.qc⟩
    · exact (by rw [processQc_round, emit_round, if_neg hr] :
        b.qc.round + 1 = (processQc io (s.emit (.accept b)) b.qc).round)
  | acceptTc io b tc => exact ⟨_, advanceRound_trace _ _ _, origin_advanceRound io _⟩
  | countVote | countTimeout => exact ⟨[], by simp, by simp⟩
  | assembleQc io v a qc =>
    exact ⟨_, processQc_trace _ _ _, origin_processQc (s := { s with aggregator := a }) io qc⟩
  | hearTimeout io t => exact ⟨_, processQc_trace _ _ _, origin_processQc io t.highQc⟩
  | assembleTc io t a tc =>
    refine ⟨_, by rw [emit_trace, advanceRound_trace, List.append_assoc], ?_⟩
    refine List.forall_mem_append.mpr ⟨?_, List.forall_mem_singleton.mpr trivial⟩
    intro x hx
    obtain ⟨hr, rfl⟩ := mem_moved.mp hx
    exact (by rw [emit_round, advanceRound_round, if_neg hr] : tc.round + 1 =
      ((advanceRound io { s with aggregator := a } tc.round).emit (.tc tc)).round)
  | hearTc io tc => exact ⟨_, advanceRound_trace _ _ _, origin_advanceRound io _⟩
  | make tc hl hf hj => exact ⟨_, rfl, List.forall_mem_singleton.mpr ⟨rfl, rfl, hl, hf, hj⟩⟩
  | timeout io => exact ⟨_, rfl, List.forall_mem_singleton.mpr ⟨rfl, le_max_right _ _⟩⟩
  | wait b missing hb hne hm =>
    refine ⟨_, List.append_assoc _ _ _, ?_⟩
    exact List.forall_mem_cons.mpr ⟨⟨b, mem_emit_self _ _, rfl⟩,
      List.forall_mem_singleton.mpr ⟨hb, hne, hm⟩⟩
  | suspend b hb => exact ⟨_, rfl, List.forall_mem_singleton.mpr (.inl hb)⟩
  | stuck b hp => exact ⟨_, rfl, List.forall_mem_singleton.mpr (.inr hp)⟩
  | store io b b0 b1 hb h1 h0 hio =>
    refine ⟨_, List.append_assoc _ _ _, ?_⟩
    refine List.forall_mem_cons.mpr ⟨⟨hb, ?_⟩,
      List.forall_mem_singleton.mpr ⟨mem_emit (mem_emit_self _ _), hb, h1, h0⟩⟩
    rw [emit_store, storeBlock_store]
    split_ifs with hw
    · exact .inr (hio hw)
    · exact .inl ⟨.block b, List.mem_cons_self⟩
  | commit b b0 b1 hb hr =>
    refine ⟨_, List.append_assoc _ _ _, ?_⟩
    exact List.forall_mem_cons.mpr ⟨⟨b0, mem_emit_self _ _, rfl⟩,
      List.forall_mem_singleton.mpr ⟨rfl, b1, b, hb, hr⟩⟩
  | deliver b l hc hr hl =>
    exact ⟨_, rfl, List.forall_mem_map.mpr fun x hx => ⟨b, l, hc, hr, hl, hx⟩⟩
  | vote b hb hG hr hl hs =>
    exact ⟨_, rfl, List.forall_mem_singleton.mpr ⟨hb, hG, hr, hl, le_max_right _ _, hs⟩⟩
  | sendVote b dest hb => exact ⟨_, rfl, List.forall_mem_singleton.mpr ⟨b, hb, rfl⟩⟩

/-- The store only grows. -/
theorem Act.store_subset (h : Act env G s s') : s.store ⊆ s'.store := by
  cases h with
  | store io b => exact store_subset_storeBlock s io b
  | _ => simp [generateProposal, increaseLastVotedRound]

theorem Acts.store_subset (h : Acts env G s s') : s.store ⊆ s'.store := by
  induction h with
  | refl => exact fun _ h => h
  | tail _ h ih => exact fun _ hx => h.store_subset (ih hx)

/-! ### How the handlers return -/

section Returns

variable (env s) (io : Io C)

/-- A vote that is not handled changes nothing; else it is counted, and may complete a QC. -/
theorem handleVote_cases (v : Vote C) :
    (handleVote env io s v).1 = s ∨
      s.round ≤ v.round ∧ v.verify env.committee = .ok () ∧ ∃ a,
        (∃ r, s.aggregator.addVote env.committee v = (a, r) ∧
          (handleVote env io s v).1 = { s with aggregator := a }) ∨
        ∃ qc, s.aggregator.addVote env.committee v = (a, .ok (some qc)) ∧
          (handleVote env io s v).1 =
            let s₁ := processQc io { s with aggregator := a } qc
            if s₁.IsLeader env then generateProposal s₁ none else s₁ := by
  unfold handleVote
  split_ifs with hr
  · exact .inl rfl
  rcases hok : v.verify env.committee with e | _
  · exact .inl rfl
  refine .inr ⟨UInt64.not_lt.mp hr, rfl, ?_⟩
  rcases ha : s.aggregator.addVote env.committee v with ⟨a, e | _ | qc⟩
  · exact ⟨a, .inl ⟨_, rfl, rfl⟩⟩
  · exact ⟨a, .inl ⟨_, rfl, rfl⟩⟩
  · exact ⟨a, .inr ⟨qc, rfl, rfl⟩⟩

/-- A timeout that is not handled changes nothing; else its high QC is processed, and it is counted
and may complete a TC. -/
theorem handleTimeout_cases (t : Timeout C) :
    (¬ (s.round ≤ t.round ∧ t.verify env.committee = .ok ()) ∧
        (handleTimeout env io s t).1 = s) ∨
      s.round ≤ t.round ∧ t.verify env.committee = .ok () ∧
        let s₁ := processQc io s t.highQc
        ∃ a, (∃ r, s₁.aggregator.addTimeout env.committee t = (a, r) ∧
            (∀ tc, r ≠ .ok (some tc)) ∧
            (handleTimeout env io s t).1 = { s₁ with aggregator := a }) ∨
          ∃ tc, s₁.aggregator.addTimeout env.committee t = (a, .ok (some tc)) ∧
            (handleTimeout env io s t).1 =
              let s₂ := (advanceRound io { s₁ with aggregator := a } tc.round).emit (.tc tc)
              if s₂.IsLeader env then generateProposal s₂ (some tc) else s₂ := by
  unfold handleTimeout
  split_ifs with hr
  · exact .inl ⟨fun h => UInt64.not_le.mpr hr h.1, rfl⟩
  rcases hok : t.verify env.committee with e | _
  · exact .inl ⟨by simp, rfl⟩
  refine .inr ⟨UInt64.not_lt.mp hr, rfl, ?_⟩
  dsimp only
  rcases ha : (processQc io s t.highQc).aggregator.addTimeout env.committee t with
    ⟨a, e | _ | tc⟩
  · exact ⟨a, .inl ⟨_, rfl, by simp, rfl⟩⟩
  · exact ⟨a, .inl ⟨_, rfl, by simp, rfl⟩⟩
  · exact ⟨a, .inr ⟨tc, rfl, rfl⟩⟩

/-- A TC that is not handled changes nothing; else it opens a round. -/
theorem handleTc_cases (tc : TC C) :
    (¬ (tc.verify env.committee = .ok () ∧ s.round ≤ tc.round) ∧ (handleTc env io s tc).1 = s) ∨
      tc.verify env.committee = .ok () ∧ s.round ≤ tc.round ∧
        (handleTc env io s tc).1 =
          let s₁ := advanceRound io s tc.round
          if s₁.IsLeader env then generateProposal s₁ (some tc) else s₁ := by
  unfold handleTc
  rcases hok : tc.verify env.committee with e | _
  · exact .inl ⟨by simp, rfl⟩
  dsimp only
  by_cases hr : tc.round < s.round
  · rw [if_pos hr]
    exact .inl ⟨fun h => UInt64.not_le.mpr hr h.2, rfl⟩
  · rw [if_neg hr]
    exact .inr ⟨rfl, UInt64.not_lt.mp hr, rfl⟩

omit [RoundTimer T] in
/-- The three ways in which `get_parent_block` returns. -/
theorem getParentBlock_cases (b : Block C) :
    (∃ p, getParentBlock env io s b = (s, .ok (some p)) ∧ Parent env s.store b p) ∨
      (getParentBlock env io s b = (s.emit (.suspend b), .ok none) ∧ ¬ b.qc.IsGenesis ∧
        s.store.lookup b.parent = none) ∨
      ∃ e, getParentBlock env io s b = (s, .error (.err e)) := by
  unfold getParentBlock
  split_ifs with hg
  · exact .inl ⟨_, rfl, .inl ⟨hg, rfl⟩⟩
  unfold Store.read
  split_ifs with hf
  · exact .inr (.inr ⟨_, rfl⟩)
  rcases hl : s.store.lookup b.parent with _ | v
  · exact .inr (.inl ⟨rfl, hg, rfl⟩)
  rcases hd : env.deserialize v with _ | p
  · exact .inr (.inr ⟨.serializationError, by simp [hd]⟩)
  · exact .inl ⟨p, by simp [hd], .inr ⟨hg, v, hl, hd⟩⟩

omit [RoundTimer T] in
/-- How `get_ancestors` returns. -/
theorem getAncestors_cases (b : Block C) :
    (∃ b0 b1, getAncestors env io s b = (s, .ok (some (b0, b1))) ∧ Parent env s.store b b1 ∧
        Parent env s.store b1 b0) ∨
      getAncestors env io s b = (s.emit (.suspend b), .ok none) ∨
      (∃ b1, getAncestors env io s b = (s.emit (.suspend b1), .error (.panic .missingAncestor)) ∧
        Parent env s.store b b1 ∧ ¬ b1.qc.IsGenesis ∧ s.store.lookup b1.parent = none) ∨
      ∃ e, getAncestors env io s b = (s, .error (.err e)) := by
  unfold getAncestors
  rcases getParentBlock_cases env s io b with ⟨b1, h1, hp1⟩ | ⟨h1, -⟩ | ⟨e, h1⟩
  · rcases getParentBlock_cases env s io b1 with
      ⟨b0, h0, hp0⟩ | ⟨h0, hg, hl⟩ | ⟨e, h0⟩
    · exact .inl ⟨b0, b1, by simp [h1, h0], hp1, hp0⟩
    · exact .inr (.inr (.inl ⟨b1, by simp [h1, h0], hp1, hg, hl⟩))
    · exact .inr (.inr (.inr ⟨e, by simp [h1, h0]⟩))
  · exact .inr (.inl (by simp [h1]))
  · exact .inr (.inr (.inr ⟨e, by simp [h1]⟩))

omit [RoundTimer T] in
/-- How the loop of `commit` returns. -/
theorem gatherAncestors_cases (last : Round) : ∀ (n : ℕ) (b : Block C) (acc : List (Block C)),
    (∃ l, gatherAncestors env io last n s b acc = (s, .ok (l.reverse ++ acc)) ∧
        Ancestors env s.store last b l) ∨
      (∃ a, gatherAncestors env io last n s b acc =
          (s.emit (.suspend a), .error (.panic .missingCommitAncestor)) ∧
        Relation.ReflTransGen (Parent env s.store) b a ∧ ¬ a.qc.IsGenesis ∧
        s.store.lookup a.parent = none) ∨
      (∃ e, gatherAncestors env io last n s b acc = (s, .error (.err e))) ∨
      gatherAncestors env io last n s b acc = (s, .error (.panic .endless))
  | 0, b, acc => .inr (.inr (.inr rfl))
  | n + 1, b, acc => by
    unfold gatherAncestors
    split_ifs with hr
    · rcases getParentBlock_cases env s io b with ⟨a, h, hp⟩ | ⟨h, hg, hl⟩ | ⟨e, h⟩
      · simp only [h]
        rcases gatherAncestors_cases last n a (a :: acc) with
          ⟨l, h', hl⟩ | ⟨a', h', hw, hg, hl⟩ | ⟨e, h'⟩ | h'
        · exact .inl ⟨a :: l, by simp [h'], .step hr hp hl⟩
        · exact .inr (.inl ⟨a', h', .head hp hw, hg, hl⟩)
        · exact .inr (.inr (.inl ⟨e, h'⟩))
        · exact .inr (.inr (.inr h'))
      · exact .inr (.inl ⟨b, by simp [h], .refl, hg, hl⟩)
      · exact .inr (.inr (.inl ⟨e, by simp [h]⟩))
    · exact .inl ⟨[], by simp, .stop hr⟩

omit [RoundTimer T] in
theorem foldl_deliver : ∀ (l : List (Block C)) (s : Core C T),
    l.foldl (fun s b => s.emit (.deliver b)) s = { s with trace := s.trace ++ l.map .deliver }
  | [], s => by simp
  | b :: l, s => by
    rw [List.foldl_cons, foldl_deliver l]
    simp [Core.emit]

omit [RoundTimer T] in
/-- A block that is not above the last committed round is not committed again. -/
theorem commit_of_le {b : Block C} (h : b.round ≤ s.lastCommittedRound) :
    commit env io s b = (s.emit (.commit s.lastCommittedRound b), .ok ()) :=
  if_pos h

omit [RoundTimer T] in
/-- What `commit` does with the ancestors that its loop returns. -/
theorem commit_of_gathered {b : Block C} (h : s.lastCommittedRound < b.round)
    {l : List (Block C)} (hl : gatherAncestors env io s.lastCommittedRound (s.store.length + 2)
      (s.emit (.commit s.lastCommittedRound b)) b [] =
        (s.emit (.commit s.lastCommittedRound b), .ok l)) :
    commit env io s b = ({ s with
      lastCommittedRound := b.round
      trace := (s.trace ++ [.commit s.lastCommittedRound b]) ++
        (l.reverse ++ [b]).map .deliver }, .ok ()) := by
  unfold commit
  dsimp only
  rw [if_neg (by simpa using h)]
  simp only [emit_lastCommittedRound, emit_store, hl, foldl_deliver, List.reverse_cons]
  rfl

omit [RoundTimer T] in
/-- How `commit` returns. -/
theorem commit_cases (b : Block C) :
    let s₁ := s.emit (.commit s.lastCommittedRound b)
    (b.round ≤ s.lastCommittedRound ∧ commit env io s b = (s₁, .ok ())) ∨
      s.lastCommittedRound < b.round ∧
        ((∃ l, Ancestors env s.store s.lastCommittedRound b l ∧ commit env io s b = ({ s₁ with
            lastCommittedRound := b.round
            trace := s₁.trace ++ (l ++ [b]).map .deliver }, .ok ())) ∨
          (∃ a, Relation.ReflTransGen (Parent env s.store) b a ∧ ¬ a.qc.IsGenesis ∧
            s.store.lookup a.parent = none ∧
            commit env io s b = (s₁.emit (.suspend a), .error (.panic .missingCommitAncestor))) ∨
          (∃ e, commit env io s b = (s₁, .error (.err e))) ∨
          gatherAncestors env io s.lastCommittedRound (s.store.length + 2) s₁ b [] =
              (s₁, .error (.panic .endless)) ∧
            commit env io s b = (s₁, .error (.panic .endless))) := by
  dsimp only
  by_cases hr : b.round ≤ s.lastCommittedRound
  · exact .inl ⟨hr, commit_of_le env s io hr⟩
  refine .inr ⟨UInt64.not_le.mp hr, ?_⟩
  rcases gatherAncestors_cases env (s.emit (.commit s.lastCommittedRound b)) io
    s.lastCommittedRound (s.store.length + 2) b [] with
    ⟨l, h, hl⟩ | ⟨a, h, hw, hg, hl⟩ | ⟨e, h⟩ | h
  · refine .inl ⟨l, hl, ?_⟩
    rw [commit_of_gathered env s io (UInt64.not_le.mp hr) h, List.append_nil,
      List.reverse_reverse]
    rfl
  · exact .inr (.inl ⟨a, hw, hg, hl, by simp [commit, hr, h]⟩)
  · exact .inr (.inr (.inl ⟨e, by simp [commit, hr, h]⟩))
  · exact .inr (.inr (.inr ⟨h, by simp [commit, hr, h]⟩))

omit [RoundTimer T] in
/-- How `make_vote` returns. -/
theorem makeVote_cases (b : Block C) :
    (safetyRule2 b = .error (.panic .emptyTc) ∧
        makeVote env s b = (s, .error (.panic .emptyTc))) ∨
      makeVote env s b = (s, .ok none) ∨
      (s.lastVotedRound < b.round ∧ safetyRule2 b = .ok true ∧
        makeVote env s b = ((increaseLastVotedRound s b.round).emit (.vote b),
          .ok (some (Vote.new b env.name)))) := by
  unfold makeVote
  rcases hs : safetyRule2 b with e | rule2
  · have he : e = .panic .emptyTc := by
      unfold safetyRule2 at hs
      dsimp only at hs
      split at hs
      · cases hs
      · split at hs
        · exact (Except.error.inj hs).symm
        · cases hs
    exact .inl ⟨by rw [he], by rw [he]⟩
  · dsimp only
    split_ifs with h
    · exact .inr (.inr ⟨h.1, by rw [h.2], rfl⟩)
    · exact .inr (.inl rfl)

/-- How the vote at the end of `process_block` goes: nothing is voted for, or the vote is handled by
the node itself or sent to the next leader. -/
theorem voteFor_cases (b : Block C) :
    voteFor env io s b = (s, .ok ()) ∨
      (safetyRule2 b = .error (.panic .emptyTc) ∧
        voteFor env io s b = (s, .error (.panic .emptyTc))) ∨
      b.round = s.round ∧ s.lastVotedRound < b.round ∧ safetyRule2 b = .ok true ∧
        let s₁ := (increaseLastVotedRound s b.round).emit (.vote b)
        (getLeader env.committee (s.round + 1) = none ∧
            voteFor env io s b = (s₁, .error (.panic .emptyCommittee))) ∨
          voteFor env io s b = handleVote env io s₁ (Vote.new b env.name) ∨
          ∃ k, voteFor env io s b = (s₁.emit (.sendVote (Vote.new b env.name) k), .ok ()) := by
  unfold voteFor
  split_ifs with hr
  swap
  · exact .inl rfl
  rcases makeVote_cases env s b with ⟨hs, h⟩ | h | ⟨hl, hs, h⟩
  · exact .inr (.inl ⟨hs, by rw [h]⟩)
  · exact .inl (by rw [h])
  refine .inr (.inr ⟨hr, hl, hs, ?_⟩)
  have hround : ((increaseLastVotedRound s b.round).emit (.vote b)).round = s.round := rfl
  simp only [h]
  unfold sendVote
  rw [hround]
  rcases getLeader env.committee (s.round + 1) with _ | k
  · exact .inl ⟨rfl, rfl⟩
  dsimp only
  split_ifs
  · exact .inr (.inl rfl)
  · exact .inr (.inr ⟨k, rfl⟩)

/-- How `process_block` returns. -/
theorem processBlock_cases (b : Block C) :
    (∃ b0 b1, Parent env s.store b b1 ∧ Parent env s.store b1 b0 ∧
        getAncestors env io s b = (s, .ok (some (b0, b1))) ∧
        let r := commitRule env io ((storeBlock io s b).emit (.cleanup b0 b1 b)) b0 b1
        (∃ e, r.2 = .error e ∧ processBlock env io s b = (r.1, .error e)) ∨
          r.2 = .ok () ∧ processBlock env io s b = voteFor env io r.1 b) ∨
      processBlock env io s b = (s.emit (.suspend b), .ok ()) ∨
      (∃ b1, Parent env s.store b b1 ∧ ¬ b1.qc.IsGenesis ∧ s.store.lookup b1.parent = none ∧
        processBlock env io s b = (s.emit (.suspend b1), .error (.panic .missingAncestor))) ∨
      ∃ e, processBlock env io s b = (s, .error (.err e)) := by
  unfold processBlock
  rcases getAncestors_cases env s io b with
    ⟨b0, b1, h, h1, h0⟩ | h | ⟨b1, h, h1, hg, hl⟩ | ⟨e, h⟩
  · refine .inl ⟨b0, b1, h1, h0, h, ?_⟩
    simp only [h]
    rcases commitRule env io ((storeBlock io s b).emit (.cleanup b0 b1 b)) b0 b1 with ⟨s₁, e | _⟩
    · exact .inl ⟨e, rfl, rfl⟩
    · exact .inr ⟨rfl, rfl⟩
  · exact .inr (.inl (by rw [h]))
  · exact .inr (.inr (.inl ⟨b1, h1, hg, hl, by rw [h]⟩))
  · exact .inr (.inr (.inr ⟨e, by rw [h]⟩))

/-- `handle_proposal` does nothing with a block that does not pass its checks. -/
theorem handleProposal_unchecked {b : Block C} (hc : ¬ Checked env b) :
    ∃ e, handleProposal env io s b = (s, .error (.err e)) := by
  unfold handleProposal
  split_ifs with hl
  · rcases hv : b.verify env.committee with e | _
    · exact ⟨e, rfl⟩
    · exact absurd ⟨hl, hv⟩ hc
  · exact ⟨_, rfl⟩

/-- How `handle_proposal` returns for a block that passes its checks. -/
theorem handleProposal_checked {b : Block C} (hc : Checked env b) :
    let s₁ := processCertificates io (s.emit (.accept b)) b
    (∃ e, handleProposal env io s b = (s₁, .error (.err e))) ∨
      (missingPayload io s₁.store b.payload = .ok [] ∧
        handleProposal env io s b = processBlock env io s₁ b) ∨
      ∃ missing, missing ≠ [] ∧ missingPayload io s₁.store b.payload = .ok missing ∧
        handleProposal env io s b =
          ((s₁.emit (.synchronize missing b.author)).emit (.wait missing b), .ok ()) := by
  unfold handleProposal mempoolVerify
  simp only [if_pos hc.1, hc.2]
  rcases missingPayload io (processCertificates io (s.emit (.accept b)) b).store b.payload with
    e | _ | ⟨x, xs⟩
  · exact .inl ⟨e, rfl⟩
  · exact .inr (.inl ⟨rfl, rfl⟩)
  · exact .inr (.inr ⟨x :: xs, List.cons_ne_nil _ _, rfl, rfl⟩)

end Returns

/-! ### Votes, timeouts and certificates -/

theorem HasVote.mono (h : Acts env G s s') {v : Vote C} (hv : HasVote env G s v) :
    HasVote env G s' v :=
  hv.imp_right fun ⟨b, hb, hv⟩ => ⟨b, h.mem hb, hv⟩

theorem HasTimeout.mono (h : Acts env G s s') {t : Timeout C} (ht : HasTimeout G s t) :
    HasTimeout G s' t :=
  ht.imp_right fun ht => ⟨ht.1, h.mem ht.2⟩

theorem Accepted.mono (h : Acts env G s s') {qc : QC C} (hq : Accepted s qc) : Accepted s' qc :=
  hq.imp_right fun ⟨r, hr⟩ => ⟨r, h.mem hr⟩

theorem Admitted.mono (h : Acts env G s s') {b : Block C} (hb : Admitted G s b) :
    Admitted G s' b :=
  ⟨hb.1, hb.2.1.imp_left h.mem, hb.2.2.mono h⟩

variable (io : Io C)

/-- A certificate that is not of a past round leaves a fresh round behind it. -/
theorem freshRound_processQc (qc : QC C) (h : s.round ≤ qc.round) :
    FreshRound (processQc io s qc) ∧ QcBefore (processQc io s qc) := by
  have hlt : ¬ qc.round < s.round := by grind
  have ht : (processQc io s qc).trace =
      (s.trace ++ [.processQc qc s.round]) ++ .moved (processQc io s qc).round :: [] := by
    simp [processQc_trace, processQc_round, qcTrace, hlt]
  refine ⟨⟨_, _, ht, by simp⟩, qc, s.round, mem_processQc s io qc, ?_⟩
  rw [processQc_round, if_neg hlt]

theorem freshRound_advanceRound {r : Round} (h : ¬ r < s.round) :
    FreshRound (advanceRound io s r) :=
  ⟨s.trace, [], by rw [advanceRound_trace, advanceRound_round, if_neg h, if_neg h], by simp⟩

omit [RoundTimer T] in
theorem FreshRound.emit (h : FreshRound s) {a : Action C}
    (ha : ∀ r qc tc, a ≠ Action.make r qc tc) : FreshRound (s.emit a) := by
  obtain ⟨l₁, l₂, ht, hl⟩ := h
  refine ⟨l₁, l₂ ++ [a], by simp [ht], fun r qc tc hm => ?_⟩
  rcases List.mem_append.mp hm with hm | hm
  · exact hl r qc tc hm
  · exact ha r qc tc (List.mem_singleton.mp hm).symm

omit [RoundTimer T] in
theorem QcBefore.emit (h : QcBefore s) (a : Action C) : QcBefore (s.emit a) := by
  obtain ⟨qc, r, hm, hr⟩ := h
  exact ⟨qc, r, mem_emit hm, hr⟩

theorem handleVote_acts {v : Vote C} (hv : HasVote env G s v) :
    Acts env G s (handleVote env io s v).1 := by
  rcases handleVote_cases env s io v with h | ⟨hr, hok, a, ⟨r, ha, h⟩ | ⟨qc, ha, h⟩⟩ <;> rw [h]
  · exact .single (.countVote v a r hv hok hr ha)
  have h1 : Act env G s (processQc io { s with aggregator := a } qc) :=
    .assembleQc io v a qc hv hok hr ha
  dsimp only
  split_ifs with hl
  · obtain ⟨hf, hq⟩ := freshRound_processQc (s := { s with aggregator := a }) io qc
      (by rw [(addVote_qc ha).2]; exact hr)
    exact .tail (.single h1) (.make none hl hf hq)
  · exact .single h1

variable (env G) in
/-- An assembled TC opens a round, unless a QC has already opened a later one. -/
theorem justified_assembled (tc : TC C) (h : tc.round < s.round → FreshRound s ∧ QcBefore s) :
    FreshRound ((advanceRound io s tc.round).emit (.tc tc)) ∧
      Justified env G ((advanceRound io s tc.round).emit (.tc tc)) (some tc) := by
  by_cases hlt : tc.round < s.round
  · obtain ⟨hf, hb⟩ := h hlt
    rw [advanceRound_of_lt _ _ hlt]
    exact ⟨hf.emit (by simp), .inl ⟨mem_emit_self _ _, .inr (hb.emit _)⟩⟩
  · refine ⟨(freshRound_advanceRound io hlt).emit (by simp), .inl ⟨mem_emit_self _ _, .inl ?_⟩⟩
    rw [emit_round, advanceRound_round, if_neg hlt]

theorem handleTimeout_acts {t : Timeout C} (ht : HasTimeout G s t) :
    Acts env G s (handleTimeout env io s t).1 := by
  rcases handleTimeout_cases env s io t with
    ⟨-, h⟩ | ⟨hr, hok, a, ⟨r, ha, -, h⟩ | ⟨tc, ha, h⟩⟩ <;> rw [h]
  all_goals
    have h1 : Acts env G s (processQc io s t.highQc) := .single (.hearTimeout io t ht hok hr)
    have hq := le_processQc_highQc s io t.highQc
  · exact h1.tail (.countTimeout t a r (ht.mono h1) hok hq ha)
  have h2 := h1.tail (.assembleTc io t a tc (ht.mono h1) hok hq ha)
  dsimp only
  split_ifs with hl
  · -- if the QC of the timeout is of a round above the TC, it opened the round
    obtain ⟨hf, hj⟩ := justified_assembled env G io tc
      (s := { processQc io s t.highQc with aggregator := a }) fun hlt => by
        refine freshRound_processQc io _ ?_
        have htc := addTimeout_tc ha
        have hround := processQc_round s io t.highQc
        dsimp only at hlt
        grind
    exact h2.tail (.make _ hl hf hj)
  · exact h2

theorem handleTc_acts {tc : TC C} (htc : s.round ≤ tc.round → G.tc tc) :
    Acts env G s (handleTc env io s tc).1 := by
  rcases handleTc_cases env s io tc with ⟨-, h⟩ | ⟨hok, hr, h⟩ <;> rw [h]
  have h1 : Act env G s (advanceRound io s tc.round) := .hearTc io tc (htc hr) hok
  have hlt : ¬ tc.round < s.round := UInt64.not_lt.mpr hr
  dsimp only
  split_ifs with hl
  · refine .tail (.single h1) (.make _ hl (freshRound_advanceRound io hlt) (.inr ⟨htc hr, hok, ?_⟩))
    rw [advanceRound_round, if_neg hlt]
  · exact .single h1

theorem localTimeoutRound_acts (hG : G.expires) :
    Acts env G s (localTimeoutRound env io s).1 := by
  unfold localTimeoutRound
  exact .head (.timeout io) (handleTimeout_acts _ (.inr ⟨hG, mem_emit_self _ _⟩))

/-! ### Blocks -/

theorem commit_acts {b : Block C}
    (hp : ∀ p, (commit env io s b).2 = .error (.panic p) → G.panics) :
    Acts env G (s.emit (.commit s.lastCommittedRound b)) (commit env io s b).1 := by
  have hin : .commit s.lastCommittedRound b ∈ (s.emit (.commit s.lastCommittedRound b)).trace :=
    mem_emit_self _ _
  rcases commit_cases env s io b with
    ⟨-, h⟩ | ⟨hr, ⟨l, hl, h⟩ | ⟨a, -, -, -, h⟩ | ⟨e, h⟩ | ⟨-, h⟩⟩ <;> rw [h] at hp ⊢
  · exact .single (.deliver b l hin hr hl)
  · exact .single (.stuck a (hp _ rfl))

theorem commitRule_acts {b b0 b1 : Block C} (hb : .cleanup b0 b1 b ∈ s.trace)
    (hp : ∀ p, (commitRule env io s b0 b1).2 = .error (.panic p) → G.panics) :
    Acts env G s (commitRule env io s b0 b1).1 := by
  unfold commitRule at hp ⊢
  split_ifs at hp ⊢ with hr
  · exact .head (.commit b b0 b1 hb hr) (commit_acts io hp)
  · exact .refl

theorem voteFor_acts {b : Block C} (hb : .store b ∈ s.trace) (hG : G.block b) :
    Acts env G s (voteFor env io s b).1 := by
  have hin := mem_emit_self (increaseLastVotedRound s b.round) (.vote b)
  rcases voteFor_cases env s io b with
    h | ⟨-, h⟩ | ⟨hr, hl, hs, ⟨-, h⟩ | h | ⟨k, h⟩⟩ <;> rw [h]
  all_goals
    have h1 : Act env G s ((increaseLastVotedRound s b.round).emit (.vote b)) :=
      .vote b hb hG hr hl hs
  · exact .single h1
  · exact .head h1 (handleVote_acts io (.inr ⟨b, hin, rfl⟩))
  · exact .tail (.single h1) (.sendVote b k hin)

theorem processBlock_acts {b : Block C} (hb : Admitted G s b)
    (hw : ∀ d, io.writeFails d = true → G.lost d)
    (hp : ∀ p, (processBlock env io s b).2 = .error (.panic p) → G.panics) :
    Acts env G s (processBlock env io s b).1 := by
  rcases processBlock_cases env s io b with
    ⟨b0, b1, h1, h0, -, hc⟩ | h | ⟨b1, -, -, -, h⟩ | ⟨e, h⟩
  · have hst : Act env G s ((storeBlock io s b).emit (.cleanup b0 b1 b)) :=
      .store io b b0 b1 hb h1 h0 (hw b.digest)
    have hin := mem_emit_self (storeBlock io s b) (.cleanup b0 b1 b)
    set s₁ := (storeBlock io s b).emit (.cleanup b0 b1 b) with hs₁
    have hstored : .store b ∈ s₁.trace := mem_emit (by simp)
    rcases hc with ⟨e, he, h⟩ | ⟨hok, h⟩ <;> rw [h] at hp ⊢
    · exact .head hst (commitRule_acts io hin fun p hp' => hp p (by rwa [he] at hp'))
    · have h2 : Acts env G s₁ (commitRule env io s₁ b0 b1).1 :=
        commitRule_acts io hin fun p hp' => by rw [hok] at hp'; cases hp'
      exact .head hst (h2.trans (voteFor_acts io (h2.mem hstored) hb.1))
  · rw [h]
    exact .single (.suspend b hb)
  · rw [h] at hp ⊢
    exact .single (.stuck b1 (hp _ rfl))
  · rw [h]

omit [RoundTimer T] in
/-- A digest of the payload is either reported missing or in the store. -/
theorem missingPayload_ok {io : Io C} {st : Store C} : ∀ {payload missing : List C.Digest},
    missingPayload io st payload = .ok missing → ∀ d ∈ payload, d ∈ missing ∨ st.Has d
  | [], _, _ => by simp
  | x :: xs, missing, h => by
    unfold missingPayload at h
    rcases hx : st.read io x with e | value
    · simp [hx] at h
    rcases hxs : missingPayload io st xs with e | m
    · simp [hx, hxs] at h
    have ih := missingPayload_ok hxs
    simp only [hx, hxs, Except.ok.injEq] at h
    unfold Store.read at hx
    split_ifs at hx
    rcases value with _ | v
    · rw [← h]
      intro d hd
      rcases List.mem_cons.mp hd with rfl | hd
      · simp
      · exact (ih d hd).imp_left fun hm => by simp [hm]
    · have hv : st.Has x := ⟨v, mem_of_lookup (Except.ok.inj hx)⟩
      rw [← h]
      intro d hd
      rcases List.mem_cons.mp hd with rfl | hd
      · exact .inr hv
      · exact ih d hd

variable (env G s) in
/-- The certificates of a proposal. -/
theorem processCertificates_rest (b : Block C) :
    let s₀ := processQc io (s.emit (.accept b)) b.qc
    Acts env G s₀ (processCertificates io (s.emit (.accept b)) b) ∧ .accept b ∈ s₀.trace ∧
      Accepted s₀ b.qc := by
  have hin : .accept b ∈ (processQc io (s.emit (.accept b)) b.qc).trace := by
    simp [processQc_trace]
  refine ⟨?_, hin, .inr ⟨_, mem_processQc _ io b.qc⟩⟩
  unfold processCertificates
  rcases htc : b.tc with _ | tc
  · exact .refl
  · exact .single (.acceptTc io b tc hin htc)

theorem processCertificates_acts {b : Block C} (hb : G.proposal b) (hc : Checked env b) :
    Acts env G s (processCertificates io (s.emit (.accept b)) b) ∧
      Accepted (processCertificates io (s.emit (.accept b)) b) b.qc := by
  obtain ⟨h1, -, hq⟩ := processCertificates_rest env G s io b
  exact ⟨.head (.accept io b hb hc) h1, hq.mono h1⟩

/-- What `handle_proposal` does after it has processed the QC. -/
theorem handleProposal_rest {b : Block C} (hc : Checked env b)
    (hB : (∀ d ∈ b.payload, s.store.Has d) → G.block b)
    (hw : ∀ d, io.writeFails d = true → G.lost d)
    (hp : ∀ p, (handleProposal env io s b).2 = .error (.panic p) → G.panics) :
    Acts env G (processQc io (s.emit (.accept b)) b.qc) (handleProposal env io s b).1 := by
  obtain ⟨h1, hin, hq⟩ := processCertificates_rest env G s io b
  rcases handleProposal_checked env s io hc with
    ⟨e, h⟩ | ⟨hm, h⟩ | ⟨missing, hne, hm, h⟩ <;> rw [h] at hp ⊢
  · exact h1
  · have hpay : ∀ d ∈ b.payload, s.store.Has d := fun d hd => by
      simpa using missingPayload_ok hm d hd
    exact h1.trans (processBlock_acts io ⟨hB hpay, .inl (h1.mem hin), hq.mono h1⟩ hw hp)
  · have hpay : b.payload ≠ [] := fun hp => by
      rw [hp] at hm
      exact hne (Except.ok.inj hm).symm
    exact h1.tail (.wait b _ (h1.mem hin) hpay (missingPayload_ok hm))

theorem handleProposal_acts {b : Block C} (hb : G.proposal b)
    (hB : Checked env b → (∀ d ∈ b.payload, s.store.Has d) → G.block b)
    (hw : ∀ d, io.writeFails d = true → G.lost d)
    (hp : ∀ p, (handleProposal env io s b).2 = .error (.panic p) → G.panics) :
    Acts env G s (handleProposal env io s b).1 := by
  by_cases hc : Checked env b
  · exact .head (.accept io b hb hc) (handleProposal_rest io hc (hB hc) hw hp)
  · obtain ⟨e, he⟩ := handleProposal_unchecked env s io hc
    rw [he]

/-- **The handlers of messages take elementary steps.** -/
theorem handleMessage_acts {m : ConsensusMessage C} (hprop : ∀ b, m = .propose b → G.proposal b)
    (hvote : ∀ v, m = .vote v → G.vote v) (htimeout : ∀ t, m = .timeout t → G.timeout t)
    (htc : ∀ tc, m = .tc tc → s.round ≤ tc.round → G.tc tc)
    (hB : ∀ b, m = .propose b → Checked env b → (∀ d ∈ b.payload, s.store.Has d) → G.block b)
    (hw : ∀ d, io.writeFails d = true → G.lost d)
    (hp : ∀ p, (handleMessage env io s m).2 = .error (.panic p) → G.panics) :
    Acts env G s (handleMessage env io s m).1 := by
  cases m with
  | propose b => exact handleProposal_acts io (hprop b rfl) (hB b rfl) hw hp
  | vote v => exact handleVote_acts io (.inl (hvote v rfl))
  | timeout t => exact handleTimeout_acts io (.inl (htimeout t rfl))
  | tc tc => exact handleTc_acts io (htc tc rfl)

end Hotstuff.Consensus.Steps
