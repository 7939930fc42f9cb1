import Hotstuff.Consensus.Admission

/-! # Parents of blocks

`IsParent` is the relation of blocks along `Block::parent`. The parent and the grandparent that
`process_block` finds are so related, and are in the store (`Linked`). -/

namespace Hotstuff.Consensus.Chain

open Hotstuff.Primitives Hotstuff.Consensus.Config Hotstuff.Consensus.Messages
open Hotstuff.Consensus.Pacing Hotstuff.Consensus.Handlers Hotstuff.Consensus.Steps
open Hotstuff.Consensus.Entries Hotstuff.Consensus.Queues Hotstuff.Consensus.Admission
open Hotstuff.Consensus.Wiring Hotstuff.Lib.Transition
open Hotstuff.Lib.Lists (mem_of_lookup)

variable {C : Crypto} {T : Type}

/-- `p` is the parent of `b`. -/
def IsParent (p b : Block C) : Prop :=
  (b.qc.IsGenesis ∧ p = Block.genesis) ∨ (¬ b.qc.IsGenesis ∧ p.digest = b.parent)

/-- The block was stored, even if the write failed, or is the first one. -/
def Known (s : Core C T) (b : Block C) : Prop := b = Block.genesis ∨ .store b ∈ s.trace

/-- The block is in the store, or is the first one. -/
def Found (s : Core C T) (b : Block C) : Prop :=
  b = Block.genesis ∨ .store b ∈ s.trace ∧ (b.digest, .block b) ∈ s.store

/-- The blocks that `get_ancestors` finds. -/
def Linked (s : Core C T) : Prop :=
  ∀ b0 b1 b, .cleanup b0 b1 b ∈ s.trace → IsParent b1 b ∧ IsParent b0 b1 ∧ Found s b1 ∧ Found s b0

theorem Known.mono {s s' : Core C T} (h : Grows s s') {b : Block C} (hb : Known s b) :
    Known s' b :=
  hb.imp_right fun hb => h.trace hb

theorem Found.mono {s s' : Core C T} (h : Grows s s') {b : Block C} (hb : Found s b) :
    Found s' b :=
  hb.imp_right fun hb => ⟨h.trace hb.1, h.store hb.2⟩

theorem Found.known {s : Core C T} {b : Block C} (hb : Found s b) : Known s b :=
  hb.imp_right And.left

theorem found_parent {env : Env C} {s : Core C T} (hs : Closed s) (hb : NoBatchCertified s)
    {b p : Block C} (hq : Accepted s b.qc) (h : Parent env s.store b p) :
    IsParent p b ∧ Found s p := by
  rcases parent_stored hs hb hq h with ⟨hg, hp⟩ | ⟨hg, hst, hd, hl⟩
  · exact ⟨.inl ⟨hg, hp⟩, .inl hp⟩
  · exact ⟨.inr ⟨hg, hd⟩, .inr ⟨hst, hd ▸ mem_of_lookup hl⟩⟩

theorem accepted_of_known {env : Env C} {s : Core C T} (hok : Entries.Ok env s) {b : Block C}
    (hb : Known s b) : Accepted s b.qc := by
  rcases hb with rfl | hb
  · exact .inl rfl
  · exact hok.entry _ hb

/-- No more blocks are cleaned up for. -/
theorem Linked.of_grows {s s' : Core C T} (hs : Linked s) (hg : Grows s s')
    (hc : ∀ b0 b1 b, .cleanup b0 b1 b ∈ s'.trace → .cleanup b0 b1 b ∈ s.trace) : Linked s' := by
  intro b0 b1 b hm
  obtain ⟨hp1, hp0, hk1, hk0⟩ := hs b0 b1 b (hc b0 b1 b hm)
  exact ⟨hp1, hp0, hk1.mono hg, hk0.mono hg⟩

variable [RoundTimer T] {env : Env C} {G : Guard C} {s s' : Core C T}

theorem Act.linked (h : Act env G s s') (hok : Entries.Ok env s) (hb : NoBatchCertified s)
    (hc : Closed s) (hs : Linked s) : Linked s' := by
  have hg := Act.grows h
  rcases Act.store_cases h with ⟨io, b, b0, b1, rfl, hadm, h1, h0, -⟩ | ⟨-, l, hl, hu⟩
  · intro c0 c1 c hm
    have hcases : Action.cleanup c0 c1 c ∈ s.trace ∨ (c0 = b0 ∧ c1 = b1 ∧ c = b) := by
      simpa using hm
    rcases hcases with hold | ⟨rfl, rfl, rfl⟩
    · obtain ⟨hp1, hp0, hk1, hk0⟩ := hs c0 c1 c hold
      exact ⟨hp1, hp0, hk1.mono hg, hk0.mono hg⟩
    · obtain ⟨hp1, hk1⟩ := found_parent hc hb hadm.2.2 h1
      obtain ⟨hp0, hk0⟩ := found_parent hc hb (accepted_of_known hok hk1.known) h0
      exact ⟨hp1, hp0, hk1.mono hg, hk0.mono hg⟩
  · exact hs.of_grows hg fun b0 b1 b hm => mem_of_unstored hu (hl ▸ hm) id

theorem Acts.linked (h : Acts env G s s') (hok : Entries.Ok env s) (hb : NoBatchCertified s')
    (hc : Closed s) (hs : Linked s) : Linked s' := by
  induction h with
  | refl => exact hs
  | tail h h' ih =>
    have hb' := noBatch_of_grows (Act.grows h') hb
    exact Act.linked h' (Acts.ok h hok) hb' (Acts.closed h hb' hc) (ih hb')

variable {n n' : Node C T} {e : Event C}

theorem linked_step (hn : Queues.Ok env n) (h : n.step env e = some n')
    (hb : NoBatchCertified n'.core) (hc : Closed n.core) (hs : Linked n.core) : Linked n'.core := by
  rcases step_core_cases hn h with heq | ⟨x, heq⟩ | hacts
  · rw [heq]; exact hs
  · refine hs.of_grows (step_grows hn h) fun b0 b1 b hm => ?_
    rw [heq] at hm
    exact hm
  · exact Acts.linked hacts hn.core hb hc hs

theorem linked_boot (io : Io C) (timer : T) : Linked (Node.boot env io timer).core := by
  have htr : (Node.boot env io timer).core.trace = _ := boot_trace env io timer
  intro b0 b1 b hm
  rw [htr] at hm
  split_ifs at hm <;> simp at hm

/-- **In every reachable state** the store is closed under parents and the blocks are linked. -/
theorem run_linked {io : Io C} {timer : T} {es : List (Event C)}
    (r : NodeRun env (Node.boot env io timer) es n) (hb : NoBatchCertified n.core) :
    Closed n.core ∧ Linked n.core :=
  run_invariant_of (boot_ok io timer) r (P := fun n => Closed n.core ∧ Linked n.core)
    noBatch_of_grows ⟨closed_boot io timer, linked_boot io timer⟩
    (fun _ _ _ hn hs hb h => ⟨closed_step hn h hb hs.1, linked_step hn h hb hs.1 hs.2⟩) hb

end Hotstuff.Consensus.Chain
