import Hotstuff.Consensus.Certificates
import Hotstuff.Consensus.Queues
import Hotstuff.Ideal

/-! # What the adaptive timer measures

`process_qc` reports the completion of a round to the timer whatever the round of the QC. The timer
measures completed rounds only if no QC of a past round is ever processed (`Complete`), which is a
condition on the proposals and the timeouts, the node's own ones included, that are handled
(`measures_iff`). -/

namespace Hotstuff.Consensus.Measuring

open Hotstuff.Primitives Hotstuff.Consensus.Config Hotstuff.Consensus.Messages
open Hotstuff.Consensus.Aggregation Hotstuff.Consensus.Pacing Hotstuff.Consensus.Handlers
open Hotstuff.Consensus.Steps Hotstuff.Consensus.Entries Hotstuff.Consensus.Certificates
open Hotstuff.Consensus.Queues Hotstuff.Consensus.Wiring Hotstuff.Lib.Transition Hotstuff.Ideal

variable {C : Crypto} {T F : Type}

/-! ### Completed rounds -/

/-- A call of `process_qc`, hence of `on_round_complete`. -/
def isUpdate : Action C → Bool
  | .processQc _ _ => true
  | _ => false

/-- A call of `process_qc` whose QC completes the current round, and so advances it. -/
def isCompletion : Action C → Bool
  | .processQc qc round => decide (round ≤ qc.round)
  | _ => false

/-- Every QC that is processed completes the round. -/
def Complete (l : List (Action C)) : Prop := ∀ qc round, .processQc qc round ∈ l → round ≤ qc.round

theorem complete_append {l l' : List (Action C)} :
    Complete (l ++ l') ↔ Complete l ∧ Complete l' := by
  refine ⟨fun h => ⟨fun qc r hm => h qc r (List.mem_append_left _ hm),
    fun qc r hm => h qc r (List.mem_append_right _ hm)⟩, fun h qc r hm => ?_⟩
  exact (List.mem_append.mp hm).elim (h.1 qc r) (h.2 qc r)

theorem complete_of_not_update {l : List (Action C)} (h : ∀ a ∈ l, isUpdate a = false) :
    Complete l :=
  fun _ _ hm => absurd (h _ hm) (by simp [isUpdate])

theorem complete_qcTrace {r : Round} {qc : QC C} : Complete (qcTrace r qc) ↔ r ≤ qc.round := by
  refine ⟨fun h => h qc r (List.mem_cons_self), fun h qc' r' hm => ?_⟩
  obtain ⟨rfl, rfl⟩ := mem_qcTrace hm
  exact h

theorem countP_completion_le (l : List (Action C)) :
    l.countP isCompletion ≤ l.countP isUpdate :=
  List.countP_mono_left fun a _ h => by cases a <;> simp_all [isCompletion, isUpdate]

/-- **The updates do not outnumber the completions** exactly if every update is one. -/
theorem countP_update_le_iff : ∀ l : List (Action C),
    l.countP isUpdate ≤ l.countP isCompletion ↔ Complete l
  | [] => by simp [Complete]
  | a :: l => by
    have ih := countP_update_le_iff l
    have hle := countP_completion_le l
    rw [show a :: l = [a] ++ l from rfl, complete_append, ← ih, List.countP_append,
      List.countP_append]
    by_cases hu : isUpdate a = true
    · cases a <;> simp only [isUpdate, Bool.false_eq_true] at hu
      rename_i qc r
      by_cases hr : r ≤ qc.round
      · have hone : Complete [Action.processQc qc r] := by simpa [Complete] using hr
        simp [isUpdate, isCompletion, hr, hone]
      · have hone : ¬ Complete [Action.processQc qc r] := by simpa [Complete] using hr
        simp only [List.countP_singleton, isUpdate, if_true, isCompletion, hr, decide_false,
          Bool.false_eq_true, if_false, hone, false_and, iff_false]
        omega
    · have hc : isCompletion a = false := by cases a <;> simp_all [isUpdate, isCompletion]
      have hone : Complete [a] := complete_of_not_update (by simpa using hu)
      simp [hu, hc, hone]

/-! ### What a handler processes -/

section Steps

variable [RoundTimer T] {env : Env C} {G : Guard C} {s s' : Core C T}

/-- The event brings no proposal and no timeout. -/
def noCertificate : Guard C :=
  ⟨fun _ => False, fun _ => True, fun _ => False, fun _ => True, fun _ => True, fun _ => True,
    fun _ => True, False, True⟩

/-- Without proposals and timeouts, the only QCs processed are the assembled ones, which complete
the round. -/
theorem Act.complete (h : Act env noCertificate s s') :
    ∃ l, s'.trace = s.trace ++ l ∧ Complete l := by
  obtain ⟨l, hl, hnew⟩ := Act.new_qcs h
  refine ⟨l, hl, fun qc r hq => ?_⟩
  obtain ⟨rfl, ho⟩ := hnew qc r hq
  cases ho with
  | proposal b hb => exact absurd hb id
  | timeout t ht => exact absurd ht (by rintro (h | h); exacts [h, h.1])
  | assembled v a hv hok hr ha =>
    rw [(addVote_qc ha).2]
    exact hr

theorem Acts.complete (h : Acts env noCertificate s s') :
    ∃ l, s'.trace = s.trace ++ l ∧ Complete l := by
  induction h with
  | refl => exact ⟨[], by simp, by simp [Complete]⟩
  | tail _ h ih =>
    obtain ⟨l, hl, hc⟩ := ih
    obtain ⟨l', hl', hc'⟩ := Act.complete h
    exact ⟨l ++ l', by rw [hl', hl, List.append_assoc], complete_append.mpr ⟨hc, hc'⟩⟩

variable (io : Io C)

/-- A proposal that passes the checks completes the round, or measures a past one. -/
theorem handleProposal_complete {b : Block C} (hc : Checked env b) :
    Complete (handleProposal env io s b).1.trace ↔ Complete s.trace ∧ s.round ≤ b.qc.round := by
  obtain ⟨l, hl, hcl⟩ := Acts.complete (handleProposal_rest (s := s) (G := noCertificate) io hc
    (fun _ => trivial) (fun _ _ => trivial) fun _ _ => trivial)
  have hone : Complete [Action.accept b] := complete_of_not_update (by simp [isUpdate])
  rw [hl, processQc_trace, emit_trace, complete_append, complete_append, complete_append,
    emit_round, complete_qcTrace]
  simp [hcl, hone]

/-- So does the high QC of a timeout. -/
theorem handleTimeout_complete {t : Timeout C} (hr : s.round ≤ t.round)
    (hok : t.verify env.committee = .ok ()) :
    Complete (handleTimeout env io s t).1.trace ↔ Complete s.trace ∧ s.round ≤ t.highQc.round := by
  have hrest : ∃ l, (handleTimeout env io s t).1.trace = (processQc io s t.highQc).trace ++ l ∧
      Complete l := by
    rcases handleTimeout_cases env s io t with
      ⟨hno, -⟩ | ⟨-, -, a, ⟨r, -, -, h⟩ | ⟨tc, -, h⟩⟩
    · exact absurd ⟨hr, hok⟩ hno
    · rw [h]
      exact ⟨[], by simp, by simp [Complete]⟩
    · rw [h]
      dsimp only
      have hmoved : ∀ (p : Prop) [Decidable p] (r : Round),
          Complete (if p then [] else [Action.moved r] : List (Action C)) := by
        intro p _ r
        split_ifs
        · simp [Complete]
        · exact complete_of_not_update (by simp [isUpdate])
      split_ifs
      · refine ⟨_, by rw [generateProposal, emit_trace, emit_trace, advanceRound_trace,
          List.append_assoc, List.append_assoc], ?_⟩
        exact complete_append.mpr ⟨hmoved _ _, complete_of_not_update (by simp [isUpdate])⟩
      · refine ⟨_, by rw [emit_trace, advanceRound_trace, List.append_assoc], ?_⟩
        exact complete_append.mpr ⟨hmoved _ _, complete_of_not_update (by simp [isUpdate])⟩
  obtain ⟨l, hl, hcl⟩ := hrest
  rw [hl, processQc_trace, complete_append, complete_append, complete_qcTrace]
  simp [hcl]

theorem handleTimeout_unverified {t : Timeout C}
    (h : ¬ (s.round ≤ t.round ∧ t.verify env.committee = .ok ())) :
    (handleTimeout env io s t).1 = s :=
  (handleTimeout_cases env s io t).elim And.right fun h' => absurd ⟨h'.1, h'.2.1⟩ h

theorem complete_of_acts (h : Acts env noCertificate s s') :
    Complete s'.trace ↔ Complete s.trace := by
  obtain ⟨l, hl, hc⟩ := Acts.complete h
  rw [hl, complete_append]
  simp [hc]

end Steps

/-! ### The condition on an event -/

section Runs

variable [RoundTimer T] {env : Env C} {n n' : Node C T} {e : Event C}

/-- The QC that the event hands to `process_qc`, if any, completes the round of the node. -/
def Completing (env : Env C) (n : Node C T) : Event C → Prop
  | .message (.propose b) _ => Checked env b → n.core.round ≤ b.qc.round
  | .message (.timeout t) _ => n.core.round ≤ t.round → t.verify env.committee = .ok () →
      n.core.round ≤ t.highQc.round
  | .timeout _ => (Timeout.new n.core.highQc n.core.round env.name).verify env.committee = .ok () →
      n.core.round ≤ n.core.highQc.round
  | _ => True

theorem complete_step (hn : Ok env n) (h : n.step env e = some n') :
    Complete n'.core.trace ↔ Complete n.core.trace ∧ Completing env n e := by
  rcases hc : e.isCore with _ | _
  · have htriv : Completing env n e := by
      cases e with
      | message | loopback | timeout => cases hc
      | _ => trivial
    rcases task_step_cases hn hc h with hf | ⟨x, -, rfl⟩
    · rw [hf.core]; exact (and_iff_left htriv).symm
    · exact (and_iff_left htriv).symm
  cases e with
  | message m io =>
    obtain ⟨-, rfl⟩ := step_message h
    rw [call_core]
    cases m with
    | propose b =>
      by_cases hb : Checked env b
      · rw [show handleMessage env io n.core (.propose b) = handleProposal env io n.core b from rfl,
          handleProposal_complete io hb]
        simp [Completing, hb]
      · obtain ⟨err, he⟩ := handleProposal_unchecked env n.core io hb
        rw [show handleMessage env io n.core (.propose b) = _ from he]
        simp [Completing, hb]
    | vote v =>
      refine (complete_of_acts (handleVote_acts io (.inl trivial))).trans ?_
      simp [Completing]
    | timeout t =>
      rw [show handleMessage env io n.core (.timeout t) = handleTimeout env io n.core t from rfl]
      by_cases hr : n.core.round ≤ t.round ∧ t.verify env.committee = .ok ()
      · rw [handleTimeout_complete io hr.1 hr.2]
        simp [Completing, hr]
      · rw [handleTimeout_unverified io hr]
        exact (and_iff_left fun h1 h2 => absurd ⟨h1, h2⟩ hr).symm
    | tc tc =>
      refine (complete_of_acts (handleTc_acts io fun _ => trivial)).trans ?_
      simp [Completing]
  | loopback io =>
    obtain ⟨hh, b, bs, hl, rfl⟩ := step_loopback h
    have hb := hn.loopback hh b (by simp [hl])
    rw [call_core]
    refine (complete_of_acts (processBlock_acts (G := noCertificate) io
      ⟨trivial, .inr trivial, accepted_of_ready hn hb⟩ (fun _ _ => trivial)
      fun _ _ => trivial)).trans ?_
    simp [Completing]
  | timeout io =>
    obtain ⟨-, rfl⟩ := step_timeout h
    rw [call_core]
    set t := Timeout.new n.core.highQc n.core.round env.name with ht
    -- the timeout is signed before it is handled
    set s : Core C T := Core.emit { increaseLastVotedRound n.core n.core.round with
      timer := RoundTimer.startRound io.now (RoundTimer.reset io.now n.core.timer) }
      (.timeout t) with hs
    have hres : localTimeoutRound env io n.core =
        handleTimeout env { io with now := io.later } s t := rfl
    have hold : Complete s.trace ↔ Complete n.core.trace := by
      have hone : Complete [Action.timeout t] := complete_of_not_update (by simp [isUpdate])
      rw [show s.trace = n.core.trace ++ [.timeout t] from rfl, complete_append]
      simp [hone]
    have hround : s.round ≤ t.round := UInt64.le_refl _
    rw [hres]
    by_cases hok : t.verify env.committee = .ok ()
    · rw [handleTimeout_complete _ hround hok, hold]
      exact and_congr_right fun _ => ⟨fun h _ => h, fun h => h hok⟩
    · rw [handleTimeout_unverified _ fun h => hok h.2, hold]
      exact (and_iff_left fun h => absurd h hok).symm
  | _ => simp [Event.isCore] at hc

theorem complete_boot (io : Io C) (timer : T) :
    Complete (Node.boot env io timer).core.trace := by
  have htr : (Node.boot env io timer).core.trace = _ := boot_trace env io timer
  rw [htr]
  split_ifs
  · exact complete_of_not_update (by simp [isUpdate])
  · simp [Complete]

/-- Every processed QC completes its round exactly if every event of the run is completing. -/
theorem complete_iff_every {io : Io C} {timer : T} {es : List (Event C)}
    (r : NodeRun env (Node.boot env io timer) es n) : Complete n.core.trace ↔
      Every (fun n e n' => n.step env e = some n') (Node.boot env io timer) (Completing env) es :=
  iff_every (step_det _) (I := Queues.Ok env)
    (Q := fun _ => True) (G := fun n => Complete n.core.trace) r (boot_ok io timer)
    (fun _ _ _ hn h => step_ok hn h) (fun _ _ _ _ _ _ => trivial) (complete_boot io timer)
    (fun _ _ _ hn h _ => complete_step hn h) trivial

end Runs

/-! ### What the timer learns -/

section Timer

variable [F64 F] {env : Env C} {G : Guard C} {s s' : Core C (Timer F)}

theorem advanceRound_learned (io : Io C) (r : Round) :
    (advanceRound io s r).timer.learned = s.timer.learned := by
  unfold advanceRound
  split_ifs <;> rfl

/-- Only `process_qc` changes what the timer has learned. -/
theorem Act.learned (h : Act env G s s') : ∃ l, s'.trace = s.trace ++ l ∧
    (s'.timer.learned = s.timer.learned ∨ ∃ qc r, .processQc qc r ∈ l) := by
  cases h with
  | accept io b =>
    exact ⟨[.accept b] ++ qcTrace s.round b.qc, by simp [processQc_trace],
      .inr ⟨b.qc, s.round, List.mem_append_right _ List.mem_cons_self⟩⟩
  | assembleQc io v a qc =>
    exact ⟨_, processQc_trace _ _ _, .inr ⟨qc, s.round, List.mem_cons_self⟩⟩
  | hearTimeout io t =>
    exact ⟨_, processQc_trace _ _ _, .inr ⟨t.highQc, s.round, List.mem_cons_self⟩⟩
  | acceptTc io b tc => exact ⟨_, advanceRound_trace _ _ _, .inl (advanceRound_learned io _)⟩
  | hearTc io tc => exact ⟨_, advanceRound_trace _ _ _, .inl (advanceRound_learned io _)⟩
  | assembleTc io t a tc =>
    exact ⟨_, by rw [emit_trace, advanceRound_trace, List.append_assoc],
      .inl (advanceRound_learned (s := { s with aggregator := a }) io _)⟩
  | countVote | countTimeout => exact ⟨[], by simp, .inl rfl⟩
  | make | timeout | suspend | stuck | deliver | vote | sendVote => exact ⟨_, rfl, .inl rfl⟩
  | wait | store | commit => exact ⟨_, List.append_assoc _ _ _, .inl rfl⟩

theorem Acts.learned (h : Acts env G s s') : ∃ l, s'.trace = s.trace ++ l ∧
    (s'.timer.learned = s.timer.learned ∨ ∃ qc r, .processQc qc r ∈ l) := by
  induction h with
  | refl => exact ⟨[], by simp, .inl rfl⟩
  | tail _ h ih =>
    obtain ⟨l, hl, hc⟩ := ih
    obtain ⟨l', hl', hc'⟩ := Act.learned h
    refine ⟨l ++ l', by rw [hl', hl, List.append_assoc], ?_⟩
    rcases hc with hc | ⟨qc, r, hm⟩
    · rcases hc' with hc' | ⟨qc, r, hm⟩
      · exact .inl (hc'.trans hc)
      · exact .inr ⟨qc, r, List.mem_append_right _ hm⟩
    · exact .inr ⟨qc, r, List.mem_append_left _ hm⟩

variable {n n' : Node C (Timer F)} {e : Event C}

theorem learned_step (hn : Ok env n) (h : n.step env e = some n')
    (hne : n'.core.timer.learned ≠ n.core.timer.learned) :
    ∃ qc r, .processQc qc r ∈ newEntries n n'.core := by
  rcases step_core_cases hn h with hc | ⟨x, hc⟩ | hacts
  · rw [hc] at hne; exact absurd rfl hne
  · rw [hc] at hne; exact absurd rfl hne
  · obtain ⟨l, hl, hcases⟩ := Acts.learned hacts
    have hnew : newEntries n n'.core = l := by
      unfold newEntries
      rw [hl, List.drop_left]
    rw [hnew]
    exact hcases.resolve_left hne

/-- The event changes what the timer has learned only if a QC that it delivers completes the round.
-/
def LearnsFromCompletion (env : Env C) (n : Node C (Timer F)) (e : Event C) : Prop :=
  ∀ n', n.step env e = some n' → n'.core.timer.learned ≠ n.core.timer.learned →
    ∃ qc round, .processQc qc round ∈ newEntries n n'.core ∧ round ≤ qc.round

/-- **When the timer only learns from completed rounds**: exactly when every QC that the handled
events hand to `process_qc` is of the current round or a later one. -/
theorem measures_iff {io : Io C} {timer : Timer F} {es : List (Event C)}
    (r : NodeRun env (Node.boot env io timer) es n) :
    (Every (fun n e n' => n.step env e = some n') (Node.boot env io timer)
        (LearnsFromCompletion env) es ∧
      n.core.trace.countP isUpdate ≤ n.core.trace.countP isCompletion) ↔
    Every (fun n e n' => n.step env e = some n') (Node.boot env io timer) (Completing env) es := by
  rw [countP_update_le_iff, complete_iff_every r]
  refine and_iff_right_of_imp fun hall es₁ e es₂ n₁ hes r₁ n₂ h hne => ?_
  have hn₁ := run_ok r₁
  obtain ⟨qc, round, hm⟩ := learned_step hn₁ h hne
  -- the run up to this event is completing too
  have hcomplete : Complete n₂.core.trace := by
    rw [complete_iff_every (r₁.snoc h)]
    intro es₁' e' es₂' m hes' r'
    refine hall es₁' e' (es₂' ++ es₂) m ?_ r'
    rw [hes, ← List.singleton_append, ← List.append_assoc, hes', List.append_assoc,
      List.cons_append]
  refine ⟨qc, round, hm, hcomplete qc round ?_⟩
  exact List.mem_of_mem_drop hm

/-- A node alone completes a round with the QC it makes of its own vote. -/
theorem measures_iff_solo : ∃ n : Node crypto (Timer ℚ),
    n.core.trace.countP isUpdate = 1 ∧
      n.core.trace.countP isUpdate ≤ n.core.trace.countP isCompletion := by
  refine ⟨_, rfl, ((measures_iff
    (run_of_soloRun [.proposerMessage [], .loopback calm] rfl)).mpr ?_).2⟩
  intro es₁ e es₂ n hes _
  have he : e ∈ [Event.proposerMessage [], .loopback calm] := by rw [hes]; simp
  simp only [List.mem_cons, List.not_mem_nil, or_false] at he
  rcases he with rfl | rfl <;> trivial

/-- The first timeout of a node alone: it handles its own timeout, which carries the first QC, and
counts it as the completion of a round. -/
theorem exists_learns_from_timeout : ¬ ∀ (es : List (Event crypto)) (n : Node crypto (Timer ℚ)),
    NodeRun solo soloStart es n →
      Every (fun n e n' => n.step solo e = some n') soloStart (LearnsFromCompletion solo) es ∧
        n.core.trace.countP isUpdate ≤ n.core.trace.countP isCompletion := by
  intro h
  have hcount := (h [.timeout { calm with now := 100 }] _ (run_of_soloRun _ rfl)).2
  revert hcount
  decide

end Timer

end Hotstuff.Consensus.Measuring
