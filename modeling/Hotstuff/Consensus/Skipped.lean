import Hotstuff.Consensus.Admission
import Hotstuff.Consensus.Advancing
import Hotstuff.Consensus.Locking

/-! # The rounds that a node leads

The core moves to a new round in `advance_round` and tells the proposer to make a block in
`generate_proposal`. After an assembled certificate, and after a received TC, the second follows the
first. It does not follow the certificates that a proposal or a timeout carries: if one of these
opens a round of the node, the node proposes nothing in it (`exists_skipped`). These are the only
rounds in which the node moves without proposing (`prompted_iff`). -/

namespace Hotstuff.Consensus.Skipped

open Hotstuff.Primitives Hotstuff.Consensus.Config Hotstuff.Consensus.Messages
open Hotstuff.Consensus.Aggregation Hotstuff.Consensus.Pacing Hotstuff.Consensus.Handlers
open Hotstuff.Consensus.Steps Hotstuff.Consensus.Entries Hotstuff.Consensus.Queues
open Hotstuff.Consensus.Tasks Hotstuff.Consensus.Wiring Hotstuff.Consensus.Locking
open Hotstuff.Consensus.Admission Hotstuff.Consensus.Advancing Hotstuff.Lib.Transition
open Hotstuff.Ideal

variable {C : Crypto} {T : Type}

/-! ### Slots -/

/-- What the trace says about the rounds: the core moves to one, or proposes in one. -/
inductive Slot where
  | moved (round : Round)
  | make (round : Round)
deriving DecidableEq

def slotOf : Action C → Option Slot
  | .moved r => some (.moved r)
  | .make r _ _ => some (.make r)
  | _ => none

def slots (s : Core C T) : List Slot := s.trace.filterMap slotOf

/-- The round after a certificate of round `r` has been processed. -/
def roundAfter (round r : Round) : Round := if r < round then round else r + 1

/-- The slots of `advance_round`. -/
def moveSlots (round r : Round) : List Slot := if r < round then [] else [.moved (r + 1)]

/-- The slots of `generate_proposal`, which is called if the node leads the round. -/
def makeSlots (env : Env C) (round : Round) : List Slot :=
  if getLeader env.committee round = some env.name then [.make round] else []

/-- The slots of a certificate of round `r` after which `generate_proposal` is called. -/
def openSlots (env : Env C) (round r : Round) : List Slot :=
  moveSlots round r ++ makeSlots env (roundAfter round r)

/-- Whenever the node moves to a round that it leads, it proposes in it. -/
def Prompt (env : Env C) (l : List Slot) : Prop :=
  ∀ r, .moved r ∈ l → getLeader env.committee r = some env.name → .make r ∈ l

theorem mem_moveSlots {round r : Round} {x : Slot} :
    x ∈ moveSlots round r ↔ round ≤ r ∧ x = .moved (r + 1) := by
  unfold moveSlots
  split_ifs with h
  · refine iff_of_false (by simp) fun hx => ?_
    grind
  · rw [List.mem_singleton]
    exact (and_iff_right (by grind)).symm

theorem mem_makeSlots {env : Env C} {round : Round} {x : Slot} : x ∈ makeSlots env round ↔
    getLeader env.committee round = some env.name ∧ x = .make round := by
  unfold makeSlots
  split_ifs with h <;> simp [h]

theorem prompt_nil {env : Env C} : Prompt env [] := by simp [Prompt]

theorem prompt_openSlots {env : Env C} {round r : Round} : Prompt env (openSlots env round r) := by
  intro x hx hl
  rcases List.mem_append.mp hx with hm | hm
  · obtain ⟨hr, hx⟩ := mem_moveSlots.mp hm
    refine List.mem_append_right _ (mem_makeSlots.mpr ?_)
    unfold roundAfter
    rw [if_neg (by grind : ¬ r < round)]
    cases hx
    exact ⟨hl, rfl⟩
  · cases (mem_makeSlots.mp hm).2

theorem Prompt.append {env : Env C} {l l' : List Slot} (h : Prompt env l) (h' : Prompt env l') :
    Prompt env (l ++ l') := by
  intro r hr hl
  rw [List.mem_append] at hr ⊢
  exact hr.imp (fun hr => h r hr hl) fun hr => h' r hr hl

section Core

variable (s : Core C T)

theorem slots_emit {a : Action C} (ha : slotOf a = none) : slots (s.emit a) = slots s := by
  unfold slots
  rw [emit_trace, List.filterMap_append, List.filterMap_cons_none ha]
  simp

variable [RoundTimer T] (env : Env C) (io : Io C)

theorem slots_advanceRound (r : Round) :
    slots (advanceRound io s r) = slots s ++ moveSlots s.round r := by
  unfold slots moveSlots
  rw [advanceRound_trace, List.filterMap_append]
  split_ifs <;> rfl

theorem slots_processQc (qc : QC C) :
    slots (processQc io s qc) = slots s ++ moveSlots s.round qc.round := by
  unfold slots moveSlots
  rw [processQc_trace, List.filterMap_append]
  unfold qcTrace
  split_ifs <;> rfl

theorem advanceRound_roundAfter (r : Round) : (advanceRound io s r).round = roundAfter s.round r :=
  advanceRound_round s io r

theorem processQc_roundAfter (qc : QC C) :
    (processQc io s qc).round = roundAfter s.round qc.round :=
  processQc_round s io qc

omit [RoundTimer T] in
theorem slots_propose (tc : Option (TC C)) :
    slots (if s.IsLeader env then generateProposal s tc else s) =
      slots s ++ makeSlots env s.round := by
  have hleader : s.IsLeader env ↔ getLeader env.committee s.round = some env.name := Iff.rfl
  unfold makeSlots
  by_cases h : s.IsLeader env
  · rw [if_pos h, if_pos (hleader.mp h), slots, generateProposal, emit_trace,
      List.filterMap_append]
    rfl
  · rw [if_neg h, if_neg (hleader.not.mp h), List.append_nil]

/-! ### The slots of the handlers -/

/-- From `s` to `s'` the core does nothing with the rounds, or processes a certificate of round `r`
and calls `generate_proposal`. -/
def Opens (env : Env C) (s s' : Core C T) (r : Round) : Prop :=
  slots s' = slots s ∨ slots s' = slots s ++ openSlots env s.round r

theorem handleVote_opens (v : Vote C) : Opens env s (handleVote env io s v).1 v.round := by
  rcases handleVote_cases env s io v with h | ⟨-, -, a, ⟨r, -, h⟩ | ⟨qc, ha, h⟩⟩ <;> rw [h]
  · exact .inl rfl
  · exact .inl rfl
  refine .inr ?_
  dsimp only
  rw [slots_propose, slots_processQc, processQc_roundAfter, (addVote_qc ha).2, List.append_assoc]
  rfl

theorem handleTc_opens (tc : TC C) : Opens env s (handleTc env io s tc).1 tc.round := by
  rcases handleTc_cases env s io tc with ⟨-, h⟩ | ⟨-, -, h⟩ <;> rw [h]
  · exact .inl rfl
  refine .inr ?_
  dsimp only
  rw [slots_propose, slots_advanceRound, advanceRound_roundAfter, List.append_assoc]
  rfl

omit [RoundTimer T] in
variable {s} in
theorem slots_calm {s' : Core C T} (h : Calm s s') : slots s' = slots s := by
  obtain ⟨l, hl, hc⟩ := h.trace
  have hnil : l.filterMap slotOf = [] := List.filterMap_eq_nil_iff.mpr fun a ha => by
    have := hc a ha
    cases a <;> first | rfl | cases this
  rw [slots, hl, List.filterMap_append, hnil, List.append_nil]
  rfl

omit [RoundTimer T] in
variable {s} in
theorem opens_calm {s' s'' : Core C T} {r : Round} (h : Calm s s') (h' : Opens env s' s'' r) :
    Opens env s s'' r := by
  unfold Opens at h' ⊢
  rwa [slots_calm h, h.round] at h'

theorem voteFor_opens (b : Block C) : Opens env s (voteFor env io s b).1 s.round := by
  rcases voteFor_calm s env io b with h | ⟨s₁, hr, h, heq⟩
  · exact .inl (slots_calm h)
  · rw [heq, ← hr]
    exact opens_calm env h (handleVote_opens s₁ env io (Vote.new b env.name))

theorem processBlock_opens (b : Block C) : Opens env s (processBlock env io s b).1 s.round := by
  rcases processBlock_calm s env io b with h | ⟨s₁, h, heq⟩
  · exact .inl (slots_calm h)
  · rw [heq, ← h.round]
    exact opens_calm env h (voteFor_opens s₁ env io b)

/-- The slots of the certificates of a proposal. -/
def certSlots (round : Round) (b : Block C) : List Slot :=
  moveSlots round b.qc.round ++
    match b.tc with
    | none => []
    | some tc => moveSlots (roundAfter round b.qc.round) tc.round

theorem slots_processCertificates (b : Block C) :
    slots (processCertificates io (s.emit (.accept b)) b) = slots s ++ certSlots s.round b := by
  have hemit := slots_emit s (a := .accept b) rfl
  unfold processCertificates certSlots
  dsimp only
  rcases b.tc with _ | tc
  · rw [slots_processQc, hemit, emit_round, List.append_nil]
  · rw [slots_advanceRound, slots_processQc, hemit, processQc_roundAfter, emit_round,
      List.append_assoc]

theorem handleProposal_opens {b : Block C} (hc : Checked env b) :
    Opens env (processCertificates io (s.emit (.accept b)) b) (handleProposal env io s b).1
      (processCertificates io (s.emit (.accept b)) b).round := by
  rcases handleProposal_checked env s io hc with ⟨e, h⟩ | ⟨-, h⟩ | ⟨missing, -, -, h⟩ <;> rw [h]
  · exact .inl rfl
  · exact processBlock_opens _ env io b
  · exact .inl (slots_calm ((calm_emit rfl).trans (calm_emit rfl)))

/-- The slots of a timeout that is handled: those of its high QC and, if it completes a TC, those of
the TC. -/
theorem handleTimeout_slots {t : Timeout C} (hok : t.verify env.committee = .ok ())
    (hr : s.round ≤ t.round) :
    let a := (processQc io s t.highQc).aggregator
    ((∀ x tc, a.addTimeout env.committee t ≠ (x, .ok (some tc))) ∧
        slots (handleTimeout env io s t).1 = slots s ++ moveSlots s.round t.highQc.round) ∨
      (∃ x tc, a.addTimeout env.committee t = (x, .ok (some tc))) ∧
        slots (handleTimeout env io s t).1 = slots s ++ (moveSlots s.round t.highQc.round ++
          openSlots env (roundAfter s.round t.highQc.round) t.round) := by
  have hqc := slots_processQc s io t.highQc
  rcases handleTimeout_cases env s io t with
    ⟨hno, -⟩ | ⟨-, -, a, ⟨r, ha, hr', h⟩ | ⟨tc, ha, h⟩⟩
  · exact absurd ⟨hr, hok⟩ hno
  · rw [h]
    exact .inl ⟨fun x tc hx => hr' tc (Prod.mk.inj (ha.symm.trans hx)).2, hqc⟩
  rw [h]
  refine .inr ⟨⟨a, tc, ha⟩, ?_⟩
  dsimp only
  rw [slots_propose, slots_emit _ (a := .tc tc) rfl, slots_advanceRound, emit_round,
    advanceRound_roundAfter, addTimeout_tc ha]
  dsimp only
  rw [processQc_roundAfter, ← List.append_assoc, ← hqc, List.append_assoc]
  rfl

end Core

/-! ### The condition -/

/-- A certificate of round `r` opens a round of the node. -/
def OpensOwn (env : Env C) (round r : Round) : Prop :=
  round ≤ r ∧ getLeader env.committee (r + 1) = some env.name

/-- If the high QC of a timeout opens a round of the node, the timeout completes a TC by itself,
which does not open a later round. -/
def Answered (env : Env C) (s : Core C T) (t : Timeout C) : Prop :=
  t.verify env.committee = .ok () → s.round ≤ t.round → OpensOwn env s.round t.highQc.round →
    t.round < t.highQc.round + 1 ∧ env.committee.quorumThreshold ≤ env.committee.stake t.author

/-- The event opens no round of the node by a certificate that a proposal or a timeout carries. -/
def Triggers (env : Env C) (n : Node C T) : Event C → Prop
  | .message (.propose b) _ => Checked env b →
      ¬ OpensOwn env n.core.round b.qc.round ∧
      ∀ tc, b.tc = some tc → ¬ OpensOwn env (roundAfter n.core.round b.qc.round) tc.round
  | .message (.timeout t) _ => Answered env n.core t
  | .timeout _ => Answered env n.core (Timeout.new n.core.highQc n.core.round env.name)
  | _ => True

section Condition

variable {env : Env C}

theorem prompt_moveSlots {round r : Round} :
    Prompt env (moveSlots round r) ↔ ¬ OpensOwn env round r := by
  constructor
  · rintro h ⟨hr, hl⟩
    have hm := h (r + 1) (mem_moveSlots.mpr ⟨hr, rfl⟩) hl
    cases (mem_moveSlots.mp hm).2
  · intro h x hx hl
    obtain ⟨hr, hx⟩ := mem_moveSlots.mp hx
    cases hx
    exact absurd ⟨hr, hl⟩ h

theorem prompt_certSlots {round : Round} {b : Block C} : Prompt env (certSlots round b) ↔
    ¬ OpensOwn env round b.qc.round ∧
      ∀ tc, b.tc = some tc → ¬ OpensOwn env (roundAfter round b.qc.round) tc.round := by
  unfold certSlots
  rcases b.tc with _ | tc
  · rw [List.append_nil, prompt_moveSlots]
    simp
  · constructor
    · intro h
      have hno : ∀ r, Slot.make r ∉ moveSlots round b.qc.round ++
          moveSlots (roundAfter round b.qc.round) tc.round := fun r hm =>
        (List.mem_append.mp hm).elim (fun hm => by cases (mem_moveSlots.mp hm).2)
          fun hm => by cases (mem_moveSlots.mp hm).2
      refine ⟨fun ho => ?_, fun tc' htc ho => ?_⟩
      · exact hno _ (h _ (List.mem_append_left _ (mem_moveSlots.mpr ⟨ho.1, rfl⟩)) ho.2)
      · cases htc
        exact hno _ (h _ (List.mem_append_right _ (mem_moveSlots.mpr ⟨ho.1, rfl⟩)) ho.2)
    · rintro ⟨h1, h2⟩
      exact (prompt_moveSlots.mpr h1).append (prompt_moveSlots.mpr (h2 tc rfl))

/-- A verified timeout is added to the makers that are left after its high QC. -/
theorem addTimeout_fresh {a : Aggregator C} {c : Committee C} {t : Timeout C}
    (h : a.timeoutsAggregators t.round = none) :
    (∃ x tc, a.addTimeout c t = (x, .ok (some tc))) ↔ c.quorumThreshold ≤ c.stake t.author := by
  unfold Aggregator.addTimeout TCMaker.appendTimeout Maker.append
  rw [h]
  simp only [Option.getD_none, Maker.new, List.not_mem_nil, if_false, UInt32.zero_add]
  split_ifs with hq <;> simp [hq]

variable [RoundTimer T] {s : Core C T} {io : Io C}

variable (io) in
/-- After a high QC that opens a round, an earlier timeout completes a TC if its author is a
quorum. -/
theorem addTimeout_opened {t : Timeout C} (hr : s.round ≤ t.highQc.round)
    (ht : t.round < t.highQc.round + 1) :
    (∃ x tc, (processQc io s t.highQc).aggregator.addTimeout env.committee t =
      (x, .ok (some tc))) ↔ env.committee.quorumThreshold ≤ env.committee.stake t.author := by
  refine addTimeout_fresh ?_
  rw [processQc_aggregator, if_neg (by grind), Aggregator.cleanup]
  exact if_neg (by grind)

variable (env s io) in
/-- **When a timeout skips no round of the node.** -/
theorem handleTimeout_prompt (t : Timeout C) :
    ∃ l, slots (handleTimeout env io s t).1 = slots s ++ l ∧
      (Answered env s t → Prompt env l) ∧ (.moved 0 ∉ l → Prompt env l → Answered env s t) := by
  rcases handleTimeout_cases env s io t with ⟨hno, h⟩ | ⟨hr, hok, -⟩
  · refine ⟨[], by rw [h, List.append_nil], fun _ => prompt_nil, fun _ _ hv hr => ?_⟩
    exact absurd ⟨hr, hv⟩ hno
  rcases handleTimeout_slots s env io hok hr with ⟨hno, hl⟩ | ⟨htc, hl⟩
  · refine ⟨_, hl, fun ha => prompt_moveSlots.mpr fun ho => ?_, fun _ hp _ _ ho => ?_⟩
    · obtain ⟨hlt, hq⟩ := ha hok hr ho
      obtain ⟨x, tc, hx⟩ := (addTimeout_opened io ho.1 hlt).mpr hq
      exact hno x tc hx
    · exact absurd ho (prompt_moveSlots.mp hp)
  by_cases ho : OpensOwn env s.round t.highQc.round
  swap
  · exact ⟨_, hl, fun _ => (prompt_moveSlots.mpr ho).append prompt_openSlots,
      fun _ _ _ _ h => absurd h ho⟩
  have hafter : roundAfter s.round t.highQc.round = t.highQc.round + 1 := if_neg (by grind [ho.1])
  rw [hafter] at hl
  have hmoved : .moved (t.highQc.round + 1) ∈ moveSlots s.round t.highQc.round :=
    mem_moveSlots.mpr ⟨ho.1, rfl⟩
  refine ⟨_, hl, fun ha x hx hlead => ?_, fun h0 hp _ _ _ => ?_⟩
  · rcases List.mem_append.mp hx with hm | hm
    · -- the proposal with the TC is made in the round that the high QC opened
      obtain ⟨-, hx⟩ := mem_moveSlots.mp hm
      cases hx
      have hlt := (ha hok hr ho).1
      refine List.mem_append_right _ (List.mem_append_right _ (mem_makeSlots.mpr ?_))
      rw [roundAfter, if_pos hlt]
      exact ⟨ho.2, rfl⟩
    · exact List.mem_append_right _ (prompt_openSlots x hm hlead)
  · have hlt : t.round < t.highQc.round + 1 := by
      have hm := hp _ (List.mem_append_left _ hmoved) ho.2
      have hm₁ : .make (t.highQc.round + 1) ∈ openSlots env (t.highQc.round + 1) t.round := by
        refine (List.mem_append.mp hm).resolve_left fun hm => ?_
        cases (mem_moveSlots.mp hm).2
      have hm₂ := (List.mem_append.mp hm₁).resolve_left fun hm => by
        cases (mem_moveSlots.mp hm).2
      by_contra hge
      have hround := (mem_makeSlots.mp hm₂).2
      rw [roundAfter, if_neg hge] at hround
      have heq : t.highQc.round = t.round := by
        have := congrArg (· - 1) (Slot.make.inj hround)
        simpa using this
      -- then the TC is of the round of the high QC, and the round has wrapped
      have hzero : t.highQc.round + 1 = 0 := by grind
      rw [hzero] at hmoved
      exact h0 (List.mem_append_left _ hmoved)
    exact ⟨hlt, (addTimeout_opened io ho.1 hlt).mp htc⟩

omit [RoundTimer T] in
/-- Without overflow, the round does not fall, and is the last one that was moved to. -/
theorem le_roundAfter {round r : Round} (h0 : .moved 0 ∉ moveSlots round r) :
    round ≤ roundAfter round r ∧ ∀ x, .moved x ∈ moveSlots round r → x = roundAfter round r := by
  unfold moveSlots at h0 ⊢
  unfold roundAfter
  split_ifs at h0 ⊢ with hr
  · exact ⟨UInt64.le_refl _, by simp⟩
  · have hne : r + 1 ≠ 0 := fun h => h0 (by simp [h])
    exact ⟨by grind, by simp⟩

variable (io) in
/-- Every move of the certificates of a proposal is to a round up to the one after them. -/
theorem certSlots_le {b : Block C} (h0 : .moved 0 ∉ certSlots s.round b) {x : Round}
    (hx : .moved x ∈ certSlots s.round b) :
    x ≤ (processCertificates io (s.emit (.accept b)) b).round := by
  have hqc := processQc_roundAfter (s.emit (.accept b)) io b.qc
  rw [emit_round] at hqc
  unfold certSlots at h0 hx
  unfold processCertificates
  obtain ⟨-, h1⟩ := le_roundAfter fun h => h0 (List.mem_append_left _ h)
  rcases htc : b.tc with _ | tc
  · simp only [htc, List.append_nil] at hx
    dsimp only
    rw [hqc, h1 x hx]
    exact UInt64.le_refl _
  · simp only [htc] at h0 hx
    obtain ⟨hle, h2⟩ := le_roundAfter fun h => h0 (List.mem_append_right _ h)
    dsimp only
    rw [advanceRound_roundAfter, hqc]
    rcases List.mem_append.mp hx with hx | hx
    · rwa [h1 x hx]
    · rw [h2 x hx]
      exact UInt64.le_refl _

variable (env s io) in
/-- **When a proposal skips no round of the node.** -/
theorem handleProposal_prompt {b : Block C} (hc : Checked env b) :
    ∃ l, slots (handleProposal env io s b).1 = slots s ++ l ∧
      (Prompt env (certSlots s.round b) → Prompt env l) ∧
      (.moved 0 ∉ l → Prompt env l → Prompt env (certSlots s.round b)) := by
  have hcert := slots_processCertificates s io b
  have hopens := handleProposal_opens s env io hc
  set s₁ := processCertificates io (s.emit (.accept b)) b with hs₁
  rcases hopens with hl | hl
  · exact ⟨_, hl.trans hcert, id, fun _ h => h⟩
  rw [hcert, List.append_assoc] at hl
  refine ⟨_, hl, fun h => h.append prompt_openSlots, fun h0 hp x hx hlead => ?_⟩
  rcases List.mem_append.mp (hp x (List.mem_append_left _ hx) hlead) with hm | hm
  · exact hm
  -- the own vote is for a block of the round after the certificates, so it opens a later one
  have hle : x ≤ s₁.round := certSlots_le io (fun h => h0 (List.mem_append_left _ h)) hx
  have hown : Slot.moved (s₁.round + 1) ∈ moveSlots s₁.round s₁.round :=
    mem_moveSlots.mpr ⟨UInt64.le_refl _, rfl⟩
  have hne : s₁.round + 1 ≠ 0 := fun h => by
    rw [h] at hown
    exact h0 (List.mem_append_right _ (List.mem_append_left _ hown))
  have hm' := (List.mem_append.mp hm).resolve_left fun hm => by cases (mem_moveSlots.mp hm).2
  have heq := Slot.make.inj (mem_makeSlots.mp hm').2
  rw [roundAfter, if_neg (by grind)] at heq
  grind

end Condition

/-! ### Runs -/

section Runs

variable [RoundTimer T] {env : Env C} {n n' : Node C T} {e : Event C}

/-- Each move of the event to a round of the node comes with a proposal of the round. -/
def Prompted (env : Env C) (n n' : Node C T) : Prop :=
  ∀ r, .moved r ∈ newEntries n n'.core → getLeader env.committee r = some env.name →
    ∃ qc tc, .make r qc tc ∈ newEntries n n'.core

omit [RoundTimer T] in
theorem mem_filterMap_moved {l : List (Action C)} {r : Round} :
    .moved r ∈ l.filterMap slotOf ↔ .moved r ∈ l := by
  rw [List.mem_filterMap]
  constructor
  · rintro ⟨a, ha, h⟩
    cases a <;> cases h
    exact ha
  · exact fun h => ⟨_, h, rfl⟩

omit [RoundTimer T] in
theorem mem_filterMap_make {l : List (Action C)} {r : Round} :
    .make r ∈ l.filterMap slotOf ↔ ∃ qc tc, .make r qc tc ∈ l := by
  rw [List.mem_filterMap]
  constructor
  · rintro ⟨a, ha, h⟩
    cases a <;> cases h
    exact ⟨_, _, ha⟩
  · rintro ⟨qc, tc, h⟩
    exact ⟨_, h, rfl⟩

variable (env) in
omit [RoundTimer T] in
/-- The property of an event and of the slots that it adds. -/
theorem prompted_iff (htr : n'.core.trace = n.core.trace ++ newEntries n n'.core) {l : List Slot}
    (hl : slots n'.core = slots n.core ++ l) :
    (Prompted env n n' ↔ Prompt env l) ∧ (NoWrap n'.core → .moved 0 ∉ l) := by
  have hnew : (newEntries n n'.core).filterMap slotOf = l := by
    unfold slots at hl
    rw [htr, List.filterMap_append] at hl
    exact List.append_cancel_left hl
  refine ⟨?_, fun hw hm => hw ?_⟩
  · unfold Prompted Prompt
    rw [← hnew]
    simp only [mem_filterMap_moved, mem_filterMap_make]
  · rw [← hnew, mem_filterMap_moved] at hm
    rw [htr]
    exact List.mem_append_right _ hm

omit [RoundTimer T] in
theorem exists_prompt_of_opens {s s' : Core C T} {r : Round} (h : Opens env s s' r) :
    ∃ l, slots s' = slots s ++ l ∧ Prompt env l :=
  h.elim (fun h => ⟨[], h.trans (List.append_nil _).symm, prompt_nil⟩)
    fun h => ⟨_, h, prompt_openSlots⟩

/-- The slots that an event of the core adds. -/
theorem exists_slots (hc : e.isCore = true) (h : n.step env e = some n') :
    ∃ l, slots n'.core = slots n.core ++ l ∧ (Triggers env n e → Prompt env l) ∧
      (.moved 0 ∉ l → Prompt env l → Triggers env n e) := by
  cases e with
  | message m io =>
    obtain ⟨-, rfl⟩ := step_message h
    rw [call_core]
    cases m with
    | propose b =>
      by_cases hb : Checked env b
      · obtain ⟨l, hl, h1, h2⟩ := handleProposal_prompt env n.core io hb
        rw [prompt_certSlots] at h1 h2
        exact ⟨l, hl, fun ht => h1 (ht hb), fun h0 hp _ => h2 h0 hp⟩
      · obtain ⟨x, hx⟩ := handleProposal_unchecked env n.core io hb
        refine ⟨[], ?_, fun _ => prompt_nil, fun _ _ hc => absurd hc hb⟩
        rw [show handleMessage env io n.core (.propose b) = _ from hx, List.append_nil]
    | vote v =>
      obtain ⟨l, hl, hp⟩ := exists_prompt_of_opens (handleVote_opens n.core env io v)
      exact ⟨l, hl, fun _ => hp, fun _ _ => trivial⟩
    | timeout t => exact handleTimeout_prompt env n.core io t
    | tc tc =>
      obtain ⟨l, hl, hp⟩ := exists_prompt_of_opens (handleTc_opens n.core env io tc)
      exact ⟨l, hl, fun _ => hp, fun _ _ => trivial⟩
  | loopback io =>
    obtain ⟨-, b, bs, -, rfl⟩ := step_loopback h
    rw [call_core]
    obtain ⟨l, hl, hp⟩ := exists_prompt_of_opens (processBlock_opens n.core env io b)
    exact ⟨l, hl, fun _ => hp, fun _ _ => trivial⟩
  | timeout io =>
    obtain ⟨-, rfl⟩ := step_timeout h
    rw [call_core]
    unfold localTimeoutRound
    set t := Timeout.new n.core.highQc n.core.round env.name
    obtain ⟨l, hl, h1, h2⟩ := handleTimeout_prompt env
      (Core.emit { increaseLastVotedRound n.core n.core.round with
        timer := RoundTimer.startRound io.now (RoundTimer.reset io.now n.core.timer) }
      (.timeout t)) { io with now := io.later } t
    rw [slots_emit _ rfl] at hl
    exact ⟨l, hl, h1, h2⟩
  | _ => simp [Event.isCore] at hc

/-- **One event**: what the condition gives, and when the condition is needed. -/
theorem prompted_step (hn : Queues.Ok env n) (h : n.step env e = some n') :
    (Triggers env n e → Prompted env n n') ∧
      (NoWrap n'.core → Prompted env n n' → Triggers env n e) := by
  rcases hc : e.isCore with _ | _
  · refine ⟨fun _ r hr => ?_, fun _ _ => ?_⟩
    · rw [newEntries_task hn hc h] at hr
      simp at hr
    · cases e <;> trivial
  · obtain ⟨l, hl, h1, h2⟩ := exists_slots hc h
    obtain ⟨hiff, h0⟩ := prompted_iff env (fresh_of_step hn hc h).1 hl
    rw [hiff]
    exact ⟨h1, fun hw => h2 (h0 hw)⟩

/-- In the run `es` every move to a round of the node comes with a proposal. -/
def NeverSkips (env : Env C) (n : Node C T) (es : List (Event C)) : Prop :=
  Every (fun n e n' => n.step env e = some n') n
    (fun n e => ∀ n', n.step env e = some n' → Prompted env n n') es

/-- **When no round of the node is skipped**: if no event opens one by a certificate that a proposal
or a timeout carries; and, as long as the round has not overflowed, only then. -/
theorem never_skips_iff {io : Io C} {timer : T} {es : List (Event C)}
    (r : NodeRun env (Node.boot env io timer) es n) :
    (Every (fun n e n' => n.step env e = some n') (Node.boot env io timer) (Triggers env) es →
        NeverSkips env (Node.boot env io timer) es) ∧
      (NoWrap n.core → NeverSkips env (Node.boot env io timer) es →
        Every (fun n e n' => n.step env e = some n') (Node.boot env io timer) (Triggers env)
          es) := by
  unfold NeverSkips
  induction r with
  | nil => exact ⟨fun _ => every_nil, fun _ _ => every_nil⟩
  | snoc r h ih =>
    rw [every_snoc (step_det _) r, every_snoc (step_det _) r]
    have hn := run_ok r
    obtain ⟨h1, h2⟩ := prompted_step hn h
    refine ⟨fun ht => ⟨ih.1 ht.1, fun n' h' => ?_⟩, fun hw hp => ⟨?_, h2 hw (hp.2 _ h)⟩⟩
    · rw [← step_det _ _ _ _ _ h h']
      exact h1 ht.2
    · exact ih.2 (noWrap_of_grows (step_grows hn h) hw) hp.1

/-- The node's own timeouts skip no round: the high QC is of a past round. -/
theorem triggers_timeout {io io' : Io C} {timer : T} {es : List (Event C)}
    (r : NodeRun env (Node.boot env io timer) es n) (hw : NoWrap n.core) :
    Triggers env n (.timeout io') := by
  intro _ _ ho
  have hlt := (run_locked r hw).round
  have hle : n.core.round ≤ n.core.highQc.round := ho.1
  grind

end Runs

/-! ### The leader of round 2 -/

def firstBlock : Block crypto := Block.new QC.genesis none (key 1) 1 []

/-- The votes of three authorities for the first block. -/
def firstQc : QC crypto :=
  ⟨firstBlock.digest, 1, [key 0, key 1, key 3].map fun k => (k, (Vote.new firstBlock k).signature)⟩

/-- The timeout of authority 0 in round 2. -/
def secondTimeout : Timeout crypto := Timeout.new firstQc 2 (key 0)

def lateStart : Node crypto (Timer ℚ) := Node.boot (four 2) calm (Timer.new 0 1000)

def lateRun (es : List (Event crypto)) : Option (Node crypto (Timer ℚ)) :=
  exec (fun n e => n.step (four 2) e) lateStart es

/-- **A skipped round**: the node, which leads round 2, moves to it by the high QC of a timeout of
round 2 and proposes nothing. -/
theorem exists_skipped : ¬ ∀ (es : List (Event crypto)) (n : Node crypto (Timer ℚ)),
    NodeRun (four 2) lateStart es n → NeverSkips (four 2) lateStart es := by
  intro h
  obtain ⟨n, hn⟩ : ∃ n, lateRun [.message (.timeout secondTimeout) calm] = some n := ⟨_, rfl⟩
  have hskip := h _ n (run_of_exec _ _ _ hn) [] _ [] lateStart rfl .nil _ rfl 2
    (mem_filterMap_moved.mp (by decide)) (by decide)
  exact absurd (mem_filterMap_make.mpr hskip) (by decide)

/-- After the vote for the first block the only authority leads round 2, and proposes in it. -/
theorem never_skips_iff_solo : ∃ n : Node crypto (Timer ℚ),
    slots n.core = [.make 1, .moved 2, .make 2] ∧
      NeverSkips solo soloStart [.proposerMessage [], .loopback calm] := by
  refine ⟨((soloStart.step solo (.proposerMessage [])).bind fun n =>
    n.step solo (.loopback calm)).getD soloStart, by decide, ?_⟩
  refine (never_skips_iff (run_of_soloRun [.proposerMessage [], .loopback calm] rfl)).1 ?_
  intro es₁ e es₂ n hes _
  have he : e ∈ [Event.proposerMessage [], .loopback calm] := by rw [hes]; simp
  rcases List.mem_cons.mp he with rfl | he
  · trivial
  · cases List.mem_singleton.mp he
    trivial

end Hotstuff.Consensus.Skipped
