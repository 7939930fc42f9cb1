import Hotstuff.Consensus.Certificates
import Hotstuff.Consensus.Locking
import Hotstuff.Consensus.Mailbox

/-! # The proposals of a leader

The core tells the proposer to make a block (`make`) from four places: at boot, after it has
assembled a QC or a TC, and after it has received a TC. Each of these directly follows a move to a
new round, so the rounds of the proposals increase (`make_increasing`). Whether the block can be
voted for is another matter: for a received TC it depends on the high QC of the leader
(`votable_iff_recent`). -/

namespace Hotstuff.Consensus.Proposals

open Hotstuff.Primitives Hotstuff.Consensus.Config Hotstuff.Consensus.Messages
open Hotstuff.Consensus.Aggregation Hotstuff.Consensus.Pacing Hotstuff.Consensus.Handlers
open Hotstuff.Consensus.Steps Hotstuff.Consensus.Entries Hotstuff.Consensus.Certificates
open Hotstuff.Consensus.Queues Hotstuff.Consensus.Tasks Hotstuff.Consensus.Wiring
open Hotstuff.Consensus.Locking Hotstuff.Consensus.Mailbox Hotstuff.Lib.Transition
open Hotstuff.Ideal

variable {C : Crypto} {T : Type}

/-! ### At most one proposal in a round -/

/-- An entry of the trace and a later one: after a proposal the node moves to later rounds, and
proposes in later rounds. -/
def Later : Action C → Action C → Prop
  | .make r _ _, .make r' _ _ => r < r'
  | .make r _ _, .moved r' => r < r'
  | _, _ => True

/-- The rounds of the proposals, in the order of the trace. -/
def madeRound : Action C → Option Round
  | .make r _ _ => some r
  | _ => none

/-- The entries propose nothing and move to rounds after `r` only. -/
def Quiet (r : Round) (l : List (Action C)) : Prop :=
  (∀ r' qc tc, .make r' qc tc ∉ l) ∧ ∀ r', .moved r' ∈ l → r < r'

theorem quiet_moved {r q : Round}
    (hw : .moved 0 ∉ (if r < q then [] else [Action.moved (r + 1)] : List (Action C))) :
    Quiet (C := C) q (if r < q then [] else [.moved (r + 1)]) := by
  split_ifs at hw ⊢ with hr
  · exact ⟨by simp, by simp⟩
  · have h0 : r + 1 ≠ 0 := fun h0 => hw (by simp [h0])
    have := lt_add_one h0
    refine ⟨by simp, fun r' hr' => ?_⟩
    have : r' = r + 1 := by simpa using hr'
    grind

theorem quiet_qcTrace {r : Round} {qc : QC C} (hw : .moved 0 ∉ qcTrace r qc) :
    Quiet r (qcTrace r qc) := by
  unfold qcTrace at hw ⊢
  obtain ⟨h1, h2⟩ := quiet_moved (C := C) (q := r) (r := qc.round)
    fun h => hw (List.mem_cons_of_mem _ h)
  refine ⟨fun r' qc' tc hm => ?_, fun r' hm => ?_⟩
  · rcases List.mem_cons.mp hm with hm | hm
    · cases hm
    · exact h1 r' qc' tc hm
  · rcases List.mem_cons.mp hm with hm | hm
    · cases hm
    · exact h2 r' hm

/-- Entries of other kinds. -/
theorem quiet_of_ne {r : Round} {l : List (Action C)}
    (h : ∀ a ∈ l, madeRound a = none ∧ movedTo a = none) : Quiet r l :=
  ⟨fun _ _ _ hm => by simpa [madeRound] using (h _ hm).1,
    fun _ hm => by simpa [movedTo] using (h _ hm).2⟩

theorem Quiet.append {r : Round} {l l' : List (Action C)} (h : Quiet r l) (h' : Quiet r l') :
    Quiet r (l ++ l') := by
  refine ⟨fun r' qc tc hm => ?_, fun r' hm => ?_⟩
  · exact (List.mem_append.mp hm).elim (h.1 r' qc tc) (h'.1 r' qc tc)
  · exact (List.mem_append.mp hm).elim (h.2 r') (h'.2 r')

section Steps

variable [RoundTimer T] {env : Env C} {G : Guard C} {s s' : Core C T}

/-- An elementary step proposes in a fresh round, or only moves to later rounds. -/
theorem Act.make_cases (h : Act env G s s') (hw : NoWrap s') :
    (∃ tc, s' = generateProposal s tc ∧ s.IsLeader env ∧ FreshRound s ∧ Justified env G s tc) ∨
      ∃ l, s'.trace = s.trace ++ l ∧ Quiet s.round l := by
  cases h with
  | make tc hl hf hj => exact .inl ⟨tc, rfl, hl, hf, hj⟩
  | accept io b =>
    unfold NoWrap at hw
    rw [processQc_trace] at hw ⊢
    refine .inr ⟨[.accept b] ++ qcTrace s.round b.qc, by simp, .append ?_ (quiet_qcTrace ?_)⟩
    · exact quiet_of_ne (by simp [madeRound, movedTo])
    · exact fun h => hw (List.mem_append_right _ h)
  | assembleQc | hearTimeout =>
    unfold NoWrap at hw
    rw [processQc_trace] at hw ⊢
    exact .inr ⟨_, rfl, quiet_qcTrace fun h => hw (List.mem_append_right _ h)⟩
  | acceptTc | hearTc =>
    unfold NoWrap at hw
    rw [advanceRound_trace] at hw ⊢
    exact .inr ⟨_, rfl, quiet_moved fun h => hw (List.mem_append_right _ h)⟩
  | assembleTc io t a tc =>
    unfold NoWrap at hw
    rw [emit_trace, advanceRound_trace] at hw ⊢
    refine .inr ⟨_, List.append_assoc _ _ _, .append (quiet_moved fun h => hw ?_) ?_⟩
    · exact List.mem_append_left _ (List.mem_append_right _ h)
    · exact quiet_of_ne (by simp [madeRound, movedTo])
  | countVote | countTimeout => exact .inr ⟨[], by simp, quiet_of_ne (by simp)⟩
  | timeout | suspend | stuck | vote | sendVote =>
    exact .inr ⟨_, rfl, quiet_of_ne (by simp [madeRound, movedTo])⟩
  | wait | store | commit =>
    exact .inr ⟨_, List.append_assoc _ _ _, quiet_of_ne (by simp [madeRound, movedTo])⟩
  | deliver b l =>
    refine .inr ⟨_, rfl, quiet_of_ne fun a ha => ?_⟩
    obtain ⟨x, -, rfl⟩ := List.mem_map.mp ha
    exact ⟨rfl, rfl⟩

/-- The invariant of the rounds of the proposals. -/
structure Increasing (s : Core C T) : Prop where
  later : s.trace.Pairwise Later
  le : ∀ r qc tc, .make r qc tc ∈ s.trace → r ≤ s.round

theorem Act.increasing (h : Act env G s s') (hw : NoWrap s') (hr : s.highQc.round < s.round)
    (hs : Increasing s) : Increasing s' := by
  have hround := (Act.round h hw hr).2
  rcases Act.make_cases h hw with ⟨tc, rfl, -, ⟨l₁, l₂, htr, hno⟩, -⟩ | ⟨l, hl, hno, hmoved⟩
  · have htr' : (generateProposal s tc).trace = s.trace ++ [.make s.round s.highQc tc] := rfl
    refine ⟨?_, fun r qc tc' hm => ?_⟩
    · rw [htr', List.pairwise_append]
      refine ⟨hs.later, List.pairwise_singleton _ _, fun a ha x hx => ?_⟩
      rw [List.mem_singleton.mp hx]
      cases a with
      | make r qc tc' =>
        -- earlier proposals were made before the move to this round
        rw [htr, List.mem_append] at ha
        rcases ha with ha | ha
        · have hp := hs.later
          rw [htr, List.pairwise_append] at hp
          exact hp.2.2 _ ha (.moved s.round) List.mem_cons_self
        · rcases List.mem_cons.mp ha with ha | ha
          · cases ha
          · exact absurd ha (hno r qc tc')
      | _ => trivial
    · rw [htr'] at hm
      rcases List.mem_append.mp hm with hm | hm
      · exact hs.le r qc tc' hm
      · cases List.mem_singleton.mp hm
        exact UInt64.le_refl _
  · refine ⟨?_, fun r qc tc' hm => ?_⟩
    · rw [hl, List.pairwise_append]
      refine ⟨hs.later, ?_, fun a ha x hx => ?_⟩
      · refine List.Pairwise.imp_of_mem (R := fun _ _ => True) (fun {a b} ha hb _ => ?_)
          (List.pairwise_of_forall fun _ _ => trivial)
        cases a with
        | make r qc tc' => exact absurd ha (hno r qc tc')
        | _ => trivial
      · cases a with
        | make r qc tc' =>
          have hle := hs.le r qc tc' ha
          cases x with
          | make r' qc' tc'' => exact absurd hx (hno r' qc' tc'')
          | moved r' => exact UInt64.lt_of_le_of_lt hle (hmoved r' hx)
          | _ => trivial
        | _ => trivial
    · rw [hl] at hm
      rcases List.mem_append.mp hm with hm | hm
      · exact UInt64.le_trans (hs.le r qc tc' hm) hround
      · exact absurd hm (hno r qc tc')

theorem Acts.increasing (h : Acts env G s s') (hw : NoWrap s') (hr : s.highQc.round < s.round)
    (hs : Increasing s) : Increasing s' := by
  induction h with
  | refl => exact hs
  | tail h h' ih =>
    have hw' : NoWrap _ := fun h0 => hw ((Act.grows h').trace h0)
    exact Act.increasing h' hw (Acts.round h hw' hr).1 (ih hw')

end Steps

/-! ### The blocks of the proposer -/

/-- The rounds of the blocks that the proposer made. -/
def createdRound : ProposerAction C → Option Round
  | .created b => some b.round
  | _ => none

def queuedRound : ProposerMessage C → Option Round
  | .make r _ _ => some r
  | _ => none

theorem filterMap_toProposer (l : List (Action C)) :
    (l.filterMap toProposer).filterMap queuedRound = l.filterMap madeRound := by
  rw [List.filterMap_filterMap]
  congr 1
  funext a
  cases a <;> rfl

theorem filterMap_handled (l : List (ProposerAction C)) :
    (l.filterMap handled).filterMap queuedRound = l.filterMap createdRound := by
  rw [List.filterMap_filterMap]
  congr 1
  funext a
  cases a <;> rfl

/-- The proposer makes one block for each message, in order. -/
theorem createdRound_extends {n : Node C T} (h : InOrder n) : n.core.trace.filterMap madeRound =
    n.proposer.trace.filterMap createdRound ++ n.proposer.rxMessage.filterMap queuedRound := by
  rw [← filterMap_toProposer, h, List.filterMap_append, filterMap_handled]

section Runs

variable [RoundTimer T] {env : Env C} {n n' : Node C T} {e : Event C}

theorem increasing_step (hn : Ok env n) (h : n.step env e = some n') (hw : NoWrap n'.core)
    (hr : n.core.highQc.round < n.core.round) (hs : Increasing n.core) : Increasing n'.core := by
  rcases step_core_cases hn h with hc | ⟨x, hc⟩ | hacts
  · rw [hc]; exact hs
  · rw [hc]; exact ⟨hs.later, hs.le⟩
  · exact Acts.increasing hacts hw hr hs

theorem increasing_boot (io : Io C) (timer : T) : Increasing (Node.boot env io timer).core := by
  have htr : (Node.boot env io timer).core.trace = _ := boot_trace env io timer
  have hround : (Node.boot env io timer).core.round = 1 := (boot_fields env io timer).2.1
  refine ⟨?_, fun r qc tc hm => ?_⟩
  · rw [htr]
    split_ifs
    · exact List.pairwise_singleton _ _
    · exact List.Pairwise.nil
  · rw [htr] at hm
    split_ifs at hm
    · cases List.mem_singleton.mp hm
      rw [hround]
      exact UInt64.le_refl _
    · simp at hm

theorem run_increasing {io : Io C} {timer : T} {es : List (Event C)}
    (r : NodeRun env (Node.boot env io timer) es n) (hw : NoWrap n.core) : Increasing n.core :=
  (run_invariant_of (boot_ok io timer) r (P := fun n => Locked n.core ∧ Increasing n.core)
    noWrap_of_grows ⟨locked_boot io timer, increasing_boot io timer⟩
    (fun _ _ _ hn hs hw h => ⟨(locked_step hn h hw hs.1).1,
      increasing_step hn h hw hs.1.round hs.2⟩) hw).2

/-- **A leader never equivocates**: the rounds in which the core proposes are strictly increasing
and led by the node, and so are those of the blocks that its proposer signs. -/
theorem never_equivocates {io : Io C} {timer : T} {es : List (Event C)}
    (r : NodeRun env (Node.boot env io timer) es n) (hw : NoWrap n.core) :
    (n.core.trace.filterMap madeRound).Pairwise (· < ·) ∧
      (∀ round ∈ n.core.trace.filterMap madeRound,
        getLeader env.committee round = some env.name) ∧
      (n.proposer.trace.filterMap createdRound).Pairwise (· < ·) := by
  have hn := run_ok r
  have hmake : (n.core.trace.filterMap madeRound).Pairwise (· < ·) := by
    rw [List.pairwise_filterMap]
    refine (run_increasing r hw).later.imp fun {a b} hab r hr r' hr' => ?_
    cases a <;> simp only [madeRound, reduceCtorEq, Option.some.injEq] at hr
    cases b <;> simp only [madeRound, reduceCtorEq, Option.some.injEq] at hr'
    rw [← hr, ← hr']
    exact hab
  refine ⟨hmake, fun round hm => ?_, ?_⟩
  · obtain ⟨a, ha, hr⟩ := List.mem_filterMap.mp hm
    cases a <;> simp only [madeRound, reduceCtorEq, Option.some.injEq] at hr
    rw [← hr]
    exact (hn.core.entry _ ha).2
  · rw [createdRound_extends (run_inOrder r)] at hmake
    exact (List.pairwise_append.mp hmake).1

/-- The node of a committee of one proposes in rounds `1` and `2`. -/
theorem never_equivocates_solo : ∃ n : Node crypto (Timer ℚ),
    n.core.trace.filterMap madeRound = [1, 2] ∧
      (n.core.trace.filterMap madeRound).Pairwise (· < ·) :=
  ⟨_, rfl, (never_equivocates
    (run_of_soloRun [.proposerMessage [], .loopback calm] rfl) (by decide)).1⟩

end Runs

/-! ### Proposals that can be voted for -/

/-- The block made of a proposal satisfies the second rule of `make_vote`. -/
def Votable (round : Round) (qc : QC C) (tc : Option (TC C)) : Prop :=
  ∀ author payload, safetyRule2 (Block.new qc tc author round payload) = .ok true

theorem votable_iff {round : Round} {qc : QC C} {tc : Option (TC C)} : Votable round qc tc ↔
    (∀ t, tc = some t → t.votes ≠ []) ∧ (qc.round + 1 = round ∨
      ∃ t, tc = some t ∧ t.round + 1 = round ∧ ∀ h ∈ t.highQcRounds, h ≤ qc.round) :=
  -- neither the author nor the payload enters the rule
  ⟨fun h => safetyRule2_iff.mp (h C.defaultKey []), fun h _ _ => safetyRule2_iff.mpr h⟩

/-- What is known of the TCs that the core assembles. -/
structure TcsKnown (env : Env C) (s : Core C T) : Prop where
  aggregator : s.aggregator.Ok env.committee (fun _ _ _ => True) fun _ v => v.2.2 ≤ s.highQc.round
  tc : ∀ tc, .tc tc ∈ s.trace → tc.votes ≠ [] ∧ ∀ h ∈ tc.highQcRounds, h ≤ s.highQc.round

section Votable

variable [RoundTimer T] {env : Env C} {G : Guard C} {s s' : Core C T}

theorem Act.tcsKnown (h : Act env G s s') (hs : TcsKnown env s) : TcsKnown env s' := by
  have hle := (Act.grows h).highQc
  refine ⟨?_, fun tc htc => ?_⟩
  · refine (Act.aggregator_ok h hs.aggregator (fun _ _ _ => trivial) ?_).mono (fun _ _ _ h => h)
      fun _ _ h => UInt64.le_trans h hle
    exact fun _ _ _ h => h
  · rcases Act.tc_cases h htc with hold | ⟨t, a, -, hok, hq, ha⟩
    · exact ⟨(hs.tc tc hold).1, fun r hr => UInt64.le_trans ((hs.tc tc hold).2 r hr) hle⟩
    · obtain ⟨hsig, -, hne⟩ := (addTimeout_ok hs.aggregator hq
        (stake_pos_mem _ (Timeout.verify_ok hok).1) ha).2 tc rfl
      refine ⟨hne, fun r hr => ?_⟩
      obtain ⟨v, hv, rfl⟩ := List.mem_map.mp hr
      exact UInt64.le_trans (hsig.entry v hv) hle

theorem Acts.tcsKnown (h : Acts env G s s') (hs : TcsKnown env s) : TcsKnown env s' := by
  induction h with
  | refl => exact hs
  | tail _ h ih => exact Act.tcsKnown h ih

omit [RoundTimer T] in
/-- With a QC of the round before, the high QC is of the round before. -/
theorem highQc_of_qcBefore (hok : Entries.Ok env s) (hr : s.highQc.round < s.round)
    (h : QcBefore s) : s.highQc.round + 1 = s.round := by
  obtain ⟨qc, r, hm, hq⟩ := h
  have hle : qc.round ≤ s.highQc.round := hok.entry _ hm
  have h0 : qc.round + 1 ≠ 0 := by rw [hq]; exact pos_of_lt hr
  have := toNat_add_one h0
  rw [UInt64.le_iff_toNat_le] at hle
  rw [UInt64.lt_iff_toNat_lt, ← hq] at hr
  have heq : s.highQc.round = qc.round := UInt64.toNat_inj.mp (by omega)
  rw [heq, hq]

omit [RoundTimer T] in
/-- **A proposal can be voted for** if its TC, when it was received, reports no QC above the high
QC. -/
theorem votable_of_justified (hok : Entries.Ok env s) (hs : TcsKnown env s)
    (hr : s.highQc.round < s.round) {tc : Option (TC C)} (hj : Justified env G s tc)
    (hrecent : ∀ t, G.tc t → t.verify env.committee = .ok () → t.round + 1 = s.round →
      ∀ h ∈ t.highQcRounds, h ≤ s.highQc.round) : Votable s.round s.highQc tc := by
  rw [votable_iff]
  rcases tc with _ | t
  · exact ⟨by simp, .inl (highQc_of_qcBefore hok hr hj)⟩
  rcases hj with ⟨htc, hround | hq⟩ | ⟨hG, hv, hround⟩
  · obtain ⟨hne, hle⟩ := hs.tc t htc
    exact ⟨fun _ h => by cases h; exact hne, .inr ⟨t, rfl, hround, hle⟩⟩
  · exact ⟨fun _ h => by cases h; exact (hs.tc t htc).1, .inl (highQc_of_qcBefore hok hr hq)⟩
  · refine ⟨fun _ h => ?_, .inr ⟨t, rfl, hround, hrecent t hG hv hround⟩⟩
    cases h
    have := ne_nil_of_check (TC.verify_ok hv).1
    rintro h0
    exact this (by rw [h0]; rfl)

/-- The proposals of the trace can be voted for. -/
def AllVotable (s : Core C T) : Prop :=
  ∀ round qc tc, .make round qc tc ∈ s.trace → Votable round qc tc

/-- A TC that leads to a proposal of the node does not report a round above `high`. -/
def TcsBelow (env : Env C) (G : Guard C) (high : Round) : Prop :=
  ∀ t, G.tc t → t.verify env.committee = .ok () →
    getLeader env.committee (t.round + 1) = some env.name → ∀ h ∈ t.highQcRounds, h ≤ high

theorem Act.allVotable (h : Act env G s s') (hw : NoWrap s') (hok : Entries.Ok env s)
    (hs : TcsKnown env s) (hr : s.highQc.round < s.round)
    (hG : TcsBelow env G s.highQc.round) (ha : AllVotable s) : AllVotable s' := by
  rcases Act.make_cases h hw with ⟨tc, rfl, hl, -, hj⟩ | ⟨l, htr, hno, -⟩
  · intro round qc tc' hm
    rcases List.mem_append.mp hm with hm | hm
    · exact ha round qc tc' hm
    · cases List.mem_singleton.mp hm
      refine votable_of_justified hok hs hr hj fun t ht hv hround => hG t ht hv ?_
      rw [hround]
      exact hl
  · intro round qc tc hm
    rw [htr] at hm
    exact ha round qc tc ((List.mem_append.mp hm).resolve_right (hno round qc tc))

theorem Acts.allVotable (h : Acts env G s s') (hw : NoWrap s') (hok : Entries.Ok env s)
    (hs : TcsKnown env s) (hr : s.highQc.round < s.round)
    (hG : TcsBelow env G s.highQc.round) (ha : AllVotable s) : AllVotable s' := by
  induction h with
  | refl => exact ha
  | tail h h' ih =>
    have hw' : NoWrap _ := fun h0 => hw ((Act.grows h').trace h0)
    refine Act.allVotable h' hw (Acts.ok h hok) (Acts.tcsKnown h hs) (Acts.round h hw' hr).1 ?_
      (ih hw')
    exact fun t ht hv hl x hx => UInt64.le_trans (hG t ht hv hl x hx) (Acts.grows h).highQc

/-! ### The condition on a run -/

variable {n n' : Node C T} {e : Event C}

/-- If the event is a TC that makes the node lead, it reports no round above that of the high QC. -/
def Recent (env : Env C) (n : Node C T) : Event C → Prop
  | .message (.tc tc) _ => tc.verify env.committee = .ok () → n.core.round ≤ tc.round →
      getLeader env.committee (tc.round + 1) = some env.name →
      ∀ h ∈ tc.highQcRounds, h ≤ n.core.highQc.round
  | _ => True

omit [RoundTimer T] in
theorem tcsBelow_of_recent (h : Recent env n e) :
    TcsBelow env (guard env n n' e) n.core.highQc.round := by
  rintro t ⟨⟨io, rfl⟩, hround⟩ hv hl
  exact h hv hround hl

/-- A TC that reports a round above that of the high QC leads to a proposal that cannot be voted
for. -/
theorem recent_of_allVotable (h : n.step env e = some n') (hw : NoWrap n'.core)
    (hr : n.core.highQc.round < n.core.round) (ha : AllVotable n'.core) : Recent env n e := by
  unfold Recent
  split
  swap
  · trivial
  rename_i tc io
  intro hv hround hl x hx
  obtain ⟨-, rfl⟩ := step_message h
  rw [call_core] at ha hw
  have hlt : ¬ tc.round < n.core.round := by grind
  have hlead : (advanceRound io n.core tc.round).IsLeader env := by
    unfold Core.IsLeader
    rw [advanceRound_round, if_neg hlt]
    exact hl
  have hres : (handleTc env io n.core tc).1 =
      generateProposal (advanceRound io n.core tc.round) (some tc) := by
    rcases handleTc_cases env n.core io tc with ⟨hno, -⟩ | ⟨-, -, heq⟩
    · exact absurd ⟨hv, hround⟩ hno
    · exact heq.trans (if_pos hlead)
  unfold handleMessage at ha hw
  rw [hres] at ha hw
  have hvot := ha _ _ _ (mem_emit_self _ _)
  rw [votable_iff, advanceRound_round, if_neg hlt, advanceRound_highQc] at hvot
  rcases hvot.2 with hone | ⟨t, ht, -, hle⟩
  · have heq : n.core.highQc.round = tc.round := by
      have := congrArg (· - 1) hone
      simpa using this
    grind
  · cases ht
    exact hle x hx

theorem tcsKnown_step (hn : Ok env n) (h : n.step env e = some n') (hs : TcsKnown env n.core) :
    TcsKnown env n'.core := by
  rcases step_core_cases hn h with hc | ⟨x, hc⟩ | hacts
  · rw [hc]; exact hs
  · rw [hc]; exact ⟨hs.aggregator, hs.tc⟩
  · exact Acts.tcsKnown hacts hs

theorem tcsKnown_boot (io : Io C) (timer : T) : TcsKnown env (Node.boot env io timer).core := by
  have htr : (Node.boot env io timer).core.trace = _ := boot_trace env io timer
  have hagg : (Node.boot env io timer).core.aggregator = _ := (boot_fields env io timer).2.2.2.2.2
  refine ⟨by rw [hagg]; exact ok_new, fun tc htc => ?_⟩
  rw [htr] at htc
  split_ifs at htc <;> simp at htc

theorem allVotable_boot (io : Io C) (timer : T) : AllVotable (Node.boot env io timer).core := by
  intro round qc tc hm
  have htr : (Node.boot env io timer).core.trace = _ := boot_trace env io timer
  rw [htr] at hm
  split_ifs at hm
  · cases List.mem_singleton.mp hm
    exact votable_iff.mpr ⟨by simp, .inl rfl⟩
  · simp at hm

/-- One event: the proposals so far and the condition on the event. -/
theorem allVotable_step (hn : Ok env n) (hs : TcsKnown env n.core)
    (hr : n.core.highQc.round < n.core.round) (h : n.step env e = some n') (hw : NoWrap n'.core) :
    AllVotable n'.core ↔ AllVotable n.core ∧ Recent env n e := by
  constructor
  · intro ha
    exact ⟨fun round qc tc hm => ha round qc tc ((step_grows hn h).trace hm),
      recent_of_allVotable h hw hr ha⟩
  · rintro ⟨ha, hrec⟩
    rcases step_core_cases hn h with hc | ⟨x, hc⟩ | hacts
    · rw [hc]; exact ha
    · rw [hc]; exact ha
    · exact Acts.allVotable hacts hw hn.core hs hr (tcsBelow_of_recent hrec) ha

/-- **When every proposal of a leader can be voted for**: exactly when no TC that the node received,
and that made it lead, reported a QC above the node's own high QC. -/
theorem votable_iff_recent {io : Io C} {timer : T} {es : List (Event C)}
    (r : NodeRun env (Node.boot env io timer) es n) (hw : NoWrap n.core) :
    AllVotable n.core ↔
      Every (fun n e n' => n.step env e = some n') (Node.boot env io timer) (Recent env) es := by
  refine iff_every (step_det _)
    (I := fun n => Queues.Ok env n ∧ TcsKnown env n.core ∧ (NoWrap n.core → Locked n.core))
    (Q := fun n => NoWrap n.core) (G := fun n => AllVotable n.core) r
    ⟨boot_ok io timer, tcsKnown_boot io timer, fun _ => locked_boot io timer⟩ ?_ ?_
    (allVotable_boot io timer) ?_ hw
  · rintro n e n' ⟨hn, hs, hl⟩ h
    refine ⟨step_ok hn h, tcsKnown_step hn h hs, fun hw => ?_⟩
    exact (locked_step hn h hw (hl (noWrap_of_grows (step_grows hn h) hw))).1
  · exact fun n e n' hi h hw => noWrap_of_grows (step_grows hi.1 h) hw
  · rintro n e n' ⟨hn, hs, hl⟩ h hw
    have hw₀ := noWrap_of_grows (step_grows hn h) hw
    exact allVotable_step hn hs (hl hw₀).round h hw

end Votable

/-- A TC of round 2 with three signers, one of which knows a QC of round `high`. -/
def secondTc (high : Round) : TC crypto :=
  ⟨2, [((0 : ℕ), crypto.sign (0 : ℕ) (timeoutDigest 2 high), high),
    ((1 : ℕ), crypto.sign (1 : ℕ) (timeoutDigest 2 0), 0),
    ((2 : ℕ), crypto.sign (2 : ℕ) (timeoutDigest 2 0), 0)]⟩

def fourStart : Node crypto (Timer ℚ) := Node.boot (four 3) calm (Timer.new 0 1000)

/-- The state after the TC. -/
def fourThird (high : Round) : Node crypto (Timer ℚ) :=
  fourStart.call (handleTc (four 3) calm fourStart.core (secondTc high))

theorem run_secondTc (high : Round) : NodeRun (four 3) fourStart
    [.message (.tc (secondTc high)) calm] (fourThird high) :=
  run_of_exec _ _ fourStart rfl

/-- The leader of round 3, whose high QC is the first QC, receives the TC with a QC of round 1 and
proposes a block that nobody can vote for. -/
theorem exists_not_votable : ¬ ∀ (es : List (Event crypto)) (n : Node crypto (Timer ℚ)),
    NodeRun (four 3) fourStart es n → AllVotable n.core := by
  intro h
  have hvot := h _ _ (run_secondTc 1) 3 QC.genesis (some (secondTc 1))
    (List.mem_cons_of_mem _ List.mem_cons_self)
  obtain ⟨-, h0 | ⟨t, ht, -, hle⟩⟩ := votable_iff.mp hvot
  · exact absurd h0 (by decide)
  · cases ht
    exact absurd (hle 1 List.mem_cons_self) (by decide)

/-- Without that QC the proposal can be voted for. -/
theorem votable_iff_recent_four : (fourThird 0).core.trace.filterMap madeRound = [3] ∧
    AllVotable (fourThird 0).core := by
  refine ⟨by decide, (votable_iff_recent (run_secondTc 0) (by decide)).mpr ?_⟩
  intro es₁ e es₂ n hes r
  rcases es₁ with _ | ⟨e', es₁⟩
  · cases hes
    cases r.det (step_det _) .nil
    intro _ _ _ x hx
    have hzero : x ∈ [(0 : Round), 0, 0] := hx
    rw [show x = 0 by simpa using hzero]
    exact UInt64.zero_le
  · simp at hes

end Hotstuff.Consensus.Proposals
