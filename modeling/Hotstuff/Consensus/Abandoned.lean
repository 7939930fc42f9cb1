import Hotstuff.Consensus.Delivery
import Hotstuff.Consensus.Mailbox

/-! # Digests of abandoned blocks

A digest leaves the buffer of the proposer when a block with it is made or processed, long before
the block is certified. Nothing puts it back but a new receipt (`mem_buffer_iff`): if it is not in
the buffer, it has not been received since it was last taken out because of some block that has it
(`kept_or_removed`), whatever has become of the block. -/

namespace Hotstuff.Consensus.Abandoned

open Hotstuff.Primitives Hotstuff.Consensus.Config Hotstuff.Consensus.Messages
open Hotstuff.Consensus.Pacing Hotstuff.Consensus.Handlers Hotstuff.Consensus.Steps
open Hotstuff.Consensus.Queues Hotstuff.Consensus.Tasks Hotstuff.Consensus.Wiring
open Hotstuff.Consensus.Mailbox Hotstuff.Consensus.Chain Hotstuff.Consensus.Delivery
open Hotstuff.Lib.Lists Hotstuff.Lib.Transition Hotstuff.Ideal

variable {C : Crypto} {T : Type}

/-! ### What is in the buffer -/

/-- The action takes the digest out of the buffer. -/
def Removes (d : C.Digest) : ProposerAction C → Prop
  | .created b => d ∈ b.payload
  | .cleaned ds => d ∈ ds
  | .received _ => False

/-- The digest has been received since it was last taken out. -/
def Held (d : C.Digest) (l : List (ProposerAction C)) : Prop :=
  ∃ l₁ l₂, l = l₁ ++ .received d :: l₂ ∧ ∀ a ∈ l₂, ¬ Removes d a

theorem held_append {d : C.Digest} {l : List (ProposerAction C)} {a : ProposerAction C} :
    Held d (l ++ [a]) ↔ a = .received d ∨ (Held d l ∧ ¬ Removes d a) := by
  constructor
  · rintro ⟨l₁, l₂, heq, hl⟩
    rcases append_singleton_split heq with ⟨-, rfl, -⟩ | ⟨l', rfl, heq'⟩
    · exact .inl rfl
    · rw [List.forall_mem_append, List.forall_mem_singleton] at hl
      exact .inr ⟨⟨l₁, l', heq', hl.1⟩, hl.2⟩
  · rintro (rfl | ⟨⟨l₁, l₂, rfl, hl⟩, ha⟩)
    · exact ⟨l, [], rfl, by simp⟩
    · refine ⟨l₁, l₂ ++ [a], by simp, fun b hb => ?_⟩
      rcases List.mem_append.mp hb with hb | hb
      · exact hl b hb
      · rwa [List.mem_singleton.mp hb]

/-- A digest that was received has been received since it was last taken out, or not. -/
theorem held_or_removed {d : C.Digest} (l : List (ProposerAction C)) (h : .received d ∈ l) :
    Held d l ∨ ∃ l₁ a l₂, l = l₁ ++ a :: l₂ ∧ Removes d a ∧ .received d ∉ l₂ := by
  induction l using List.reverseRecOn with
  | nil => simp at h
  | append_singleton l a ih =>
    by_cases ha : a = .received d
    · exact .inl (held_append.mpr (.inl ha))
    have hl : .received d ∈ l :=
      (List.mem_append.mp h).resolve_right fun h => ha (List.mem_singleton.mp h).symm
    rcases ih hl with hheld | ⟨l₁, x, l₂, rfl, hx, hno⟩
    · by_cases hr : Removes d a
      · exact .inr ⟨l, a, [], rfl, hr, by simp⟩
      · exact .inl (held_append.mpr (.inr ⟨hheld, hr⟩))
    · exact .inr ⟨l₁, x, l₂ ++ [a], by simp, hx, by simp [hno, Ne.symm ha]⟩

section Buffer

variable {env : Env C} {n n' : Node C T}

theorem held_step (h : ProposerStep n n')
    (hs : ∀ d, d ∈ n.proposer.buffer ↔ Held d n.proposer.trace) (d : C.Digest) :
    d ∈ n'.proposer.buffer ↔ Held d n'.proposer.trace := by
  cases h with
  | idle new hcore htr hbuf hrx => rw [hbuf, htr]; exact hs d
  | received x hcore htr hbuf hrx =>
    rw [hbuf, htr, held_append, List.mem_insert_iff, hs d]
    simp only [Removes, not_false_eq_true, and_true, ProposerAction.received.injEq, eq_comm]
  | created b hcore htr hpay hbuf hrx =>
    rw [hbuf, htr, held_append, ← hs d, ← hpay.mem_iff]
    simp [Removes]
  | cleaned ds hcore htr hbuf hrx =>
    rw [hbuf, htr, held_append, List.mem_filter, hs d]
    simp [Removes]

variable [RoundTimer T] {es : List (Event C)} {io : Io C} {timer : T}

/-- **What is in the buffer** has been received since it was last taken out. -/
theorem mem_buffer_iff (r : NodeRun env (Node.boot env io timer) es n) (d : C.Digest) :
    d ∈ n.proposer.buffer ↔ Held d n.proposer.trace := by
  suffices h : ∀ d, d ∈ n.proposer.buffer ↔ Held d n.proposer.trace from h d
  refine run_invariant (boot_ok io timer) r
    (P := fun n => ∀ d, d ∈ n.proposer.buffer ↔ Held d n.proposer.trace) (fun d => ?_) ?_
  · refine iff_of_false List.not_mem_nil ?_
    rintro ⟨l₁, l₂, heq, -⟩
    simp at heq
  · exact fun _ _ _ hn hs h => held_step (proposerStep_of_step hn h) hs

end Buffer

/-! ### Why a digest was taken out -/

/-- The action takes the digest out because the block has it: the block was made, or it is one of
the three of a `Cleanup`. -/
def RemovesFor (s : Core C T) (d : C.Digest) (B : Block C) : ProposerAction C → Prop
  | .created b => b = B ∧ d ∈ B.payload
  | .cleaned ds => d ∈ B.payload ∧ ∃ b0 b1 b, .cleanup b0 b1 b ∈ s.trace ∧
      ds = b0.payload ++ b1.payload ++ b.payload ∧ (B = b0 ∨ B = b1 ∨ B = b)
  | .received _ => False

/-- The digest was in the buffer and was taken out because of the block. -/
def RemovedFor (n : Node C T) (d : C.Digest) (B : Block C) : Prop :=
  ∃ l₁ a l₂, n.proposer.trace = l₁ ++ a :: l₂ ∧ Held d l₁ ∧ RemovesFor n.core d B a

/-- The digest was taken out because of the block, and has not been received since. -/
def LastRemovedFor (n : Node C T) (d : C.Digest) (B : Block C) : Prop :=
  ∃ l₁ a l₂, n.proposer.trace = l₁ ++ a :: l₂ ∧ RemovesFor n.core d B a ∧ .received d ∉ l₂

theorem removesFor_of_removes {n : Node C T} (hi : InOrder n) {d : C.Digest}
    {a : ProposerAction C} (ha : a ∈ n.proposer.trace) (h : Removes d a) :
    ∃ B, RemovesFor n.core d B a := by
  cases a with
  | received => exact absurd h id
  | created b => exact ⟨b, rfl, h⟩
  | cleaned ds =>
    -- the message was sent by the core
    have hsent : .cleanup ds ∈ n.core.trace.filterMap toProposer := by
      rw [hi]
      exact List.mem_append_left _ (List.mem_filterMap.mpr ⟨_, ha, rfl⟩)
    obtain ⟨x, hx, hxd⟩ := List.mem_filterMap.mp hsent
    cases x <;> simp only [toProposer, reduceCtorEq, Option.some.injEq] at hxd
    rename_i b0 b1 b
    cases ProposerMessage.cleanup.inj hxd
    rcases List.mem_append.mp h with h | h
    · rcases List.mem_append.mp h with h | h
      · exact ⟨b0, h, b0, b1, b, hx, rfl, .inl rfl⟩
      · exact ⟨b1, h, b0, b1, b, hx, rfl, .inr (.inl rfl)⟩
    · exact ⟨b, h, b0, b1, b, hx, rfl, .inr (.inr rfl)⟩

section Runs

variable [RoundTimer T] {env : Env C} {n : Node C T} {es : List (Event C)} {io : Io C} {timer : T}

/-- **Only a new receipt brings a digest back.** A digest that was received is in the buffer, namely
if it has been received since it was last taken out, or it was last taken out because of a block
that has it, and has not been received since. -/
theorem kept_or_removed (r : NodeRun env (Node.boot env io timer) es n) {d : C.Digest}
    (h : .received d ∈ n.proposer.trace) :
    (d ∈ n.proposer.buffer ↔ Held d n.proposer.trace) ∧
      (d ∈ n.proposer.buffer ∨ ∃ B, d ∈ B.payload ∧ LastRemovedFor n d B) := by
  have hbuf := mem_buffer_iff r d
  refine ⟨hbuf, ?_⟩
  rcases held_or_removed _ h with hheld | ⟨l₁, a, l₂, htr, ha, hno⟩
  · exact .inl (hbuf.mpr hheld)
  obtain ⟨B, hB⟩ := removesFor_of_removes (run_inOrder r) (htr ▸ by simp) ha
  refine .inr ⟨B, ?_, l₁, a, l₂, htr, hB, hno⟩
  cases a with
  | received => exact absurd ha id
  | created b => exact hB.2
  | cleaned ds => exact hB.1

end Runs

/-! ### A digest that is lost -/

def storedBlock : Action C → Option (Block C)
  | .store b => some b
  | _ => none

def createdBlock : ProposerAction C → Option (Block C)
  | .created b => some b
  | _ => none

/-- The blocks that the node has stored or made. -/
def blocks (n : Node C T) : List (Block C) :=
  n.core.trace.filterMap storedBlock ++ n.proposer.trace.filterMap createdBlock

/-- The node has committed a block that is not below the block and does not have it in its chain. -/
def IsAbandoned (n : Node C T) (B : Block C) : Prop :=
  ∃ b ∈ delivered n.core, b.round = n.core.lastCommittedRound ∧ B.round ≤ b.round ∧
    B.digest ≠ b.digest ∧ ¬ Relation.TransGen IsParent B b

/-- A block sent to the application has the digest. -/
def InCommitted (n : Node C T) (d : C.Digest) : Prop := ∃ b ∈ delivered n.core, d ∈ b.payload

/-- A block that the node knows and that extends the last committed one has the digest. -/
def InPending (n : Node C T) (d : C.Digest) : Prop :=
  ∃ b ∈ blocks n, d ∈ b.payload ∧ ∃ c ∈ delivered n.core, c.round = n.core.lastCommittedRound ∧
    Relation.TransGen IsParent c b

/-- Only the first block is an ancestor of a block that extends it. -/
theorem ancestor_of_first {a b : Block C} (hb : b.qc.IsGenesis)
    (h : Relation.TransGen IsParent a b) : a = Block.genesis := by
  have hpar : ∀ {p c : Block C}, c.qc.IsGenesis → IsParent p c → p = Block.genesis := by
    rintro p c hc (⟨-, hp⟩ | ⟨hg, -⟩)
    · exact hp
    · exact absurd hc hg
  induction h using Relation.TransGen.head_induction_on with
  | single h => exact hpar hb h
  | head h _ ih => exact hpar (ih ▸ isGenesis_genesis) h

/-- A block that extends the first one does not extend a later one. -/
theorem not_inPending {n : Node C T} {d : C.Digest}
    (h : ∀ b ∈ blocks n, d ∈ b.payload → b.qc.IsGenesis) (hlast : n.core.lastCommittedRound ≠ 0) :
    ¬ InPending n d := by
  rintro ⟨b, hb, hd, c, -, hc, hanc⟩
  rw [ancestor_of_first (h b hb hd) hanc] at hc
  exact hlast hc.symm

/-- The digest of the batch. -/
def lostDigest : crypto.Digest := crypto.batchDigest (7 : ℕ)

/-- The block of round 1 of a node alone. -/
def lostBlock : Block crypto := Block.new QC.genesis none (key 0) 1 [lostDigest]

/-- The node lets round 1 time out before it processes its block, and commits the block of round 2,
which extends the first one. -/
def abandonedRound : List (Event crypto) :=
  [.batch (7 : ℕ), .digest, .timeout calm, .proposerMessage [lostDigest], .proposerMessage [],
    .loopback calm, .loopback calm, .proposerMessage [], .proposerMessage [], .proposerMessage [],
    .loopback calm, .proposerMessage [], .proposerMessage [], .loopback calm]

/-- **A digest is lost.** It was taken out of the buffer because of the block of round 1; the block
is abandoned, and the digest is neither committed, nor in a block to come, nor in the buffer. -/
theorem exists_lost : ∃ (es : List (Event crypto)) (n : Node crypto (Timer ℚ)) (d : crypto.Digest)
    (B : Block crypto), NodeRun solo soloStart es n ∧ RemovedFor n d B ∧ IsAbandoned n B ∧
      ¬ (InCommitted n d ∨ InPending n d ∨ d ∈ n.proposer.buffer) := by
  refine ⟨abandonedRound, _, lostDigest, lostBlock, run_of_soloRun _ rfl, ?_, ?_, ?_⟩
  · exact ⟨[.received lostDigest], .created lostBlock, _, rfl, ⟨[], [], rfl, by simp⟩, rfl,
      List.mem_cons_self⟩
  · refine ⟨_, List.mem_of_getElem? (i := 1) rfl, rfl, by decide, by decide, fun h => ?_⟩
    have heq : lostBlock = Block.genesis := ancestor_of_first (by decide) h
    exact absurd (congrArg Block.round heq) (by decide)
  · rintro (⟨b, hb, hd⟩ | h | h)
    · revert b
      decide
    · exact not_inPending (by decide) (by decide) h
    · revert h
      decide

/-- At the end of this run the digest has not been received again. -/
theorem kept_or_removed_solo : ∃ n : Node crypto (Timer ℚ), n.core.lastCommittedRound = 2 ∧
    (lostDigest ∈ n.proposer.buffer ↔ Held lostDigest n.proposer.trace) ∧
      (lostDigest ∈ n.proposer.buffer ∨
        ∃ B, lostDigest ∈ B.payload ∧ LastRemovedFor n lostDigest B) :=
  ⟨_, rfl, kept_or_removed (run_of_soloRun abandonedRound rfl) (List.mem_of_getElem? (i := 0) rfl)⟩

end Hotstuff.Consensus.Abandoned
