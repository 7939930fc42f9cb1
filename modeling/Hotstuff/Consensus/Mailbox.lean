import Hotstuff.Consensus.Queues

/-! # What the proposer does

An event makes the proposer take a digest, make a block or drop digests, or it leaves the proposer
as it is but for new messages of the core (`ProposerStep`). The messages are handled in the order in
which the core sends them (`run_inOrder`). -/

namespace Hotstuff.Consensus.Mailbox

open Hotstuff.Primitives Hotstuff.Consensus.Config Hotstuff.Consensus.Messages
open Hotstuff.Consensus.Pacing Hotstuff.Consensus.Handlers Hotstuff.Consensus.Steps
open Hotstuff.Consensus.Queues Hotstuff.Consensus.Tasks Hotstuff.Consensus.Wiring
open Hotstuff.Lib.Transition

variable {C : Crypto} {T : Type}

/-- What an event does to the proposer. -/
inductive ProposerStep (n n' : Node C T) : Prop
  | idle (new : List (Action C)) (hcore : n'.core.trace = n.core.trace ++ new)
      (htr : n'.proposer.trace = n.proposer.trace) (hbuf : n'.proposer.buffer = n.proposer.buffer)
      (hrx : n'.proposer.rxMessage = n.proposer.rxMessage ++ new.filterMap toProposer)
  | received (d : C.Digest) (hcore : n'.core.trace = n.core.trace)
      (htr : n'.proposer.trace = n.proposer.trace ++ [.received d])
      (hbuf : n'.proposer.buffer = n.proposer.buffer.insert d)
      (hrx : n'.proposer.rxMessage = n.proposer.rxMessage)
  | created (b : Block C) (hcore : n'.core.trace = n.core.trace)
      (htr : n'.proposer.trace = n.proposer.trace ++ [.created b])
      (hpay : b.payload.Perm n.proposer.buffer) (hbuf : n'.proposer.buffer = [])
      (hrx : n.proposer.rxMessage = .make b.round b.qc b.tc :: n'.proposer.rxMessage)
  | cleaned (ds : List C.Digest) (hcore : n'.core.trace = n.core.trace)
      (htr : n'.proposer.trace = n.proposer.trace ++ [.cleaned ds])
      (hbuf : n'.proposer.buffer = n.proposer.buffer.filter (· ∉ ds))
      (hrx : n.proposer.rxMessage = .cleanup ds :: n'.proposer.rxMessage)

variable {env : Env C} {n n' : Node C T} {e : Event C}

/-- The proposer and the trace of the core are as before. -/
theorem ProposerStep.same (hcore : n'.core.trace = n.core.trace)
    (hp : n'.proposer.trace = n.proposer.trace) (hbuf : n'.proposer.buffer = n.proposer.buffer)
    (hrx : n'.proposer.rxMessage = n.proposer.rxMessage) : ProposerStep n n' :=
  .idle [] (by simp [hcore]) hp hbuf (by simp [hrx])

variable [RoundTimer T]

/-- **Every event is such a step.** -/
theorem proposerStep_of_step (hn : Queues.Ok env n) (h : n.step env e = some n') :
    ProposerStep n n' := by
  rcases hc : e.isCore with _ | _
  swap
  · obtain ⟨-, -, -, -, hp⟩ := step_core_tasks hc h
    exact .idle (newEntries n n'.core) (fresh_of_step hn hc h).1 (by rw [hp]) (by rw [hp])
      (by rw [hp])
  unfold Node.step at h
  rw [hc] at h
  cases e with
  | message | loopback | timeout => simp [Event.isCore] at hc
  | digest =>
    obtain ⟨p, hp, rfl⟩ := Option.map_eq_some_iff.mp h
    unfold Proposer.receiveDigest at hp
    split at hp
    · cases hp
      exact .received _ rfl rfl rfl rfl
    · simp at hp
  | proposerMessage payload =>
    obtain ⟨⟨p, b⟩, hp, rfl⟩ := Option.map_eq_some_iff.mp h
    unfold Proposer.receiveMessage at hp
    split at hp
    · rename_i hrx
      split_ifs at hp with hperm
      cases hp
      exact .created _ rfl rfl hperm rfl hrx
    · rename_i hrx
      cases hp
      exact .cleaned _ rfl rfl rfl hrx
    · simp at hp
  | ack i =>
    obtain ⟨p, hp, rfl⟩ := Option.map_eq_some_iff.mp h
    unfold Proposer.acknowledge at hp
    split at hp
    · simp at hp
    · split at hp
      · simp at hp
      · cases hp
        exact .same rfl rfl rfl rfl
  | payloadReady | syncReady =>
    obtain ⟨r, -, rfl⟩ := Option.map_eq_some_iff.mp h
    exact .same rfl rfl rfl rfl
  | payloadMessage | payloadCancelled | payloadFailed | syncBlock | syncFailed =>
    obtain ⟨w, -, rfl⟩ := Option.map_eq_some_iff.mp h
    exact .same rfl rfl rfl rfl
  | syncTimer | batch | batchLost =>
    cases Option.some.inj h
    exact .same rfl rfl rfl rfl

/-! ### The order of the messages -/

/-- The message that an action of the proposer answers. -/
def handled : ProposerAction C → Option (ProposerMessage C)
  | .created b => some (.make b.round b.qc b.tc)
  | .cleaned ds => some (.cleanup ds)
  | .received _ => none

/-- What the core has sent is what the proposer has handled, and what is on the way. -/
def InOrder (n : Node C T) : Prop :=
  n.core.trace.filterMap toProposer = n.proposer.trace.filterMap handled ++ n.proposer.rxMessage

omit [RoundTimer T] in
theorem inOrder_step (h : ProposerStep n n') (hi : InOrder n) : InOrder n' := by
  unfold InOrder at hi ⊢
  cases h with
  | idle new hcore htr _ hrx =>
    rw [hcore, List.filterMap_append, hi, htr, hrx, List.append_assoc]
  | received d hcore htr _ hrx =>
    rw [hcore, htr, hrx, List.filterMap_append, hi]
    exact congrArg (· ++ _) (List.append_nil _).symm
  | created b hcore htr _ _ hrx | cleaned ds hcore htr _ hrx =>
    rw [hcore, htr, List.filterMap_append, hi, hrx, List.append_assoc]
    rfl

theorem inOrder_boot (io : Io C) (timer : T) : InOrder (Node.boot env io timer) := by
  show (Core.boot env io timer).trace.filterMap toProposer =
    [] ++ ([] ++ (Core.boot env io timer).trace.filterMap toProposer)
  simp

/-- **The proposer handles the messages of the core in order.** -/
theorem run_inOrder {io : Io C} {timer : T} {es : List (Event C)}
    (r : NodeRun env (Node.boot env io timer) es n) : InOrder n :=
  run_invariant (boot_ok io timer) r (inOrder_boot io timer)
    fun _ _ _ hn hs h => inOrder_step (proposerStep_of_step hn h) hs

omit [RoundTimer T] in
/-- When the proposer made a block, it had handled what the core sent before it asked for the
block. -/
theorem sent_before (hi : InOrder n) {p₁ p₂ : List (ProposerAction C)} {b : Block C}
    (hp : n.proposer.trace = p₁ ++ .created b :: p₂) :
    ∃ l₁ l₂, n.core.trace = l₁ ++ .make b.round b.qc b.tc :: l₂ ∧
      l₁.filterMap toProposer = p₁.filterMap handled := by
  unfold InOrder at hi
  rw [hp, List.filterMap_append, List.filterMap_cons_some (show handled (.created b) = some _ from
    rfl), List.append_assoc] at hi
  obtain ⟨l₁, l', htr, hl₁, hl'⟩ := List.filterMap_eq_append_iff.mp hi
  obtain ⟨l₀, a, l₂, rfl, hnone, ha, -⟩ := List.filterMap_eq_cons_iff.mp hl'
  refine ⟨l₁ ++ l₀, l₂, ?_, ?_⟩
  · rw [htr]
    cases a <;> simp only [toProposer, reduceCtorEq, Option.some.injEq] at ha
    obtain ⟨rfl, rfl, rfl⟩ := ProposerMessage.make.inj ha
    rw [List.append_assoc]
  · rw [List.filterMap_append, hl₁, List.filterMap_eq_nil_iff.mpr hnone, List.append_nil]

end Hotstuff.Consensus.Mailbox
