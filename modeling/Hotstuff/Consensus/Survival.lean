import Hotstuff.Consensus.Walking
import Hotstuff.Consensus.Electing

/-! # No honest node panics

The core ends with a panic where it finds no parent that it expects (`synchronizer.rs`, `core.rs`),
a TC without votes, or no leader; the synchronizer where the author of a block has no address. Each
`expect` is about what the node does not control: what the others send. While few authorities are
faulty none of them fails, in any order of events (`no_panic`).

An error of the store is no panic here: it is an error that the core logs. -/

namespace Hotstuff.Consensus.Survival

open Hotstuff.Primitives Hotstuff.Consensus.Config Hotstuff.Consensus.Messages
open Hotstuff.Consensus.Pacing Hotstuff.Consensus.Handlers Hotstuff.Consensus.Steps
open Hotstuff.Consensus.Tasks Hotstuff.Consensus.Entries Hotstuff.Consensus.Evidence
open Hotstuff.Consensus.Admission Hotstuff.Consensus.Queues Hotstuff.Consensus.Chain
open Hotstuff.Consensus.Wiring Hotstuff.Consensus.System Hotstuff.Consensus.Coherence
open Hotstuff.Consensus.Agreement Hotstuff.Consensus.Cancelling Hotstuff.Consensus.Walking
open Hotstuff.Consensus.Electing Hotstuff.Lib.Transition Hotstuff.Ideal

variable {C : Crypto} {T : Type}

/-! ### Votes that panic -/

section Votes

variable {env : Env C} {s : Core C T} {b : Block C}

/-- The second rule panics for a TC without votes only. -/
theorem votes_of_emptyTc {p : Panic} (h : safetyRule2 b = .error (.panic p)) :
    ∃ tc, b.tc = some tc ∧ tc.votes = [] := by
  unfold safetyRule2 at h
  dsimp only at h
  split at h
  · cases h
  rename_i tc htc
  refine ⟨tc, htc, ?_⟩
  split at h
  · rename_i hmax
    simpa [TC.highQcRounds] using hmax
  · cases h

/-- A TC that passes its check has votes. -/
theorem votes_of_verify {c : Committee C} {tc : TC C} (h : tc.verify c = .ok ()) :
    tc.votes ≠ [] := fun hnil => ne_nil_of_check (TC.verify_ok h).1 (by rw [hnil]; rfl)

theorem votes_of_quorum {c : Committee C} {tc : TC C}
    (h : c.Quorum (tc.votes.map Prod.fst).toFinset) : tc.votes ≠ [] := by
  intro hnil
  have hle := h.2
  have hpos := UInt32.lt_iff_toNat_lt.mp (threshold_pos c)
  rw [hnil, List.map_nil, List.toFinset_nil, Committee.weight, Finset.sum_empty] at hle
  exact absurd hpos (Nat.not_lt.mpr hle)

variable (io : Io C)

/-- `commit` panics only about the ancestors of the block. -/
theorem commitRule_reason {b0 b1 : Block C} {p : Panic}
    (h : (commitRule env io s b0 b1).2 = .error (.panic p)) :
    p = .endless ∨ p = .missingCommitAncestor := by
  unfold commitRule at h
  split_ifs at h
  rcases commit_cases env (s.emit (.gc b0.round)) io b0 with
    ⟨-, h'⟩ | ⟨-, ⟨l, -, h'⟩ | ⟨a, -, -, -, h'⟩ | ⟨e, h'⟩ | ⟨-, h'⟩⟩ <;> rw [h'] at h <;> cases h
  · exact .inr rfl
  · exact .inl rfl

/-- What can be wrong with a block: it, or the committee. -/
def Faulty (env : Env C) (b : Block C) : Prop :=
  (∃ tc, b.tc = some tc ∧ tc.votes = []) ∨ ∃ r, getLeader env.committee r = none

variable [RoundTimer T]

theorem voteFor_reason {p : Panic} (h : (voteFor env io s b).2 = .error (.panic p)) :
    Faulty env b := by
  rcases voteFor_cases env s io b with
    h' | ⟨hrule, -⟩ | ⟨-, -, -, ⟨hl, -⟩ | h' | ⟨k, h'⟩⟩
  · rw [h'] at h
    cases h
  · exact .inl (votes_of_emptyTc hrule)
  · exact .inr ⟨_, hl⟩
  · rw [h'] at h
    exact absurd h (handleVote_panic io)
  · rw [h'] at h
    cases h

/-- **The panics of `process_block`**: about ancestors, or about the block. -/
theorem processBlock_reason {p : Panic} (h : (processBlock env io s b).2 = .error (.panic p)) :
    p = .endless ∨ p = .missingCommitAncestor ∨ p = .missingAncestor ∨ Faulty env b := by
  rcases processBlock_cases env s io b with
    ⟨b0, b1, -, -, -, ⟨e, he, h'⟩ | ⟨-, h'⟩⟩ | h' | ⟨b1, -, -, -, h'⟩ | ⟨e, h'⟩ <;> rw [h'] at h
  · exact (commitRule_reason io (he.trans h)).imp_right .inl
  · exact .inr (.inr (.inr (voteFor_reason io h)))
  · cases h
  · cases h
    exact .inr (.inr (.inl rfl))
  · cases h

theorem handleProposal_reason {p : Panic} (h : (handleProposal env io s b).2 = .error (.panic p)) :
    Checked env b ∧
      (p = .endless ∨ p = .missingCommitAncestor ∨ p = .missingAncestor ∨ Faulty env b) := by
  by_cases hc : Checked env b
  swap
  · obtain ⟨e, he⟩ := handleProposal_unchecked env s io hc
    rw [he] at h
    cases h
  refine ⟨hc, ?_⟩
  rcases handleProposal_checked env s io hc with
    ⟨e, h'⟩ | ⟨-, h'⟩ | ⟨missing, -, -, h'⟩ <;> rw [h'] at h
  · cases h
  · exact processBlock_reason io h
  · cases h

end Votes

/-! ### Addresses -/

section Addresses

variable {n n' : Node C T} {e : Event C}

theorem handle_network {y : Synchronizer C} {now : Instant} {b : Block C} {d : C.Digest}
    {a : C.PublicKey} (h : .send d a ∈ (y.handle now b).network) :
    .send d a ∈ y.network ∨ b.author = a := by
  unfold Synchronizer.handle at h
  dsimp only at h
  split_ifs at h
  · exact .inl h
  · exact .inl h
  · rcases List.mem_append.mp h with h | h
    · exact .inl h
    · cases List.mem_singleton.mp h
      exact .inr rfl

variable [RoundTimer T] {env : Env C}

/-- The synchronizer sends its requests to the authors of the blocks it has. -/
theorem network_step (h : n.step env e = some n') {d : C.Digest} {a : C.PublicKey}
    (hd : .send d a ∈ n'.synchronizer.network) :
    .send d a ∈ n.synchronizer.network ∨ ∃ b, Syncs n b ∧ b.author = a := by
  rcases hc : e.isCore with _ | _
  swap
  · rw [(step_core_tasks hc h).2.2.2.1] at hd
    exact .inl hd
  rw [Node.step, if_neg (by simp [hc])] at h
  cases e with
  | syncBlock now =>
    obtain ⟨y, hy, rfl⟩ := Option.map_eq_some_iff.mp h
    obtain ⟨b, bs, hrx, rfl⟩ := Synchronizer.receive_eq hy
    refine (handle_network hd).imp_right fun ha => ⟨b, .inl ?_, ha⟩
    rw [hrx]
    exact List.mem_cons_self
  | syncReady i =>
    obtain ⟨y, hy, rfl⟩ := Option.map_eq_some_iff.mp h
    obtain ⟨b, -, -, rfl⟩ := Synchronizer.ready_eq hy
    exact .inl hd
  | syncFailed i =>
    obtain ⟨y, hy, rfl⟩ := Option.map_eq_some_iff.mp h
    obtain ⟨b, -, rfl⟩ := Synchronizer.failed_eq hy
    exact .inl hd
  | syncTimer delay now =>
    cases h
    -- the requests that the timer repeats go to all
    rcases List.mem_append.mp hd with hd | hd
    · exact .inl hd
    · obtain ⟨x, -, hx⟩ := List.mem_map.mp hd
      cases hx
  | proposerMessage payload =>
    obtain ⟨⟨p, _ | b⟩, -, rfl⟩ := Option.map_eq_some_iff.mp h <;> exact .inl hd
  | batch x => cases h; exact .inl hd
  | batchLost x => cases h; exact .inl hd
  | message m io => cases hc
  | loopback io => cases hc
  | timeout io => cases hc
  | _ => obtain ⟨y, -, rfl⟩ := Option.map_eq_some_iff.mp h; exact .inl hd

end Addresses

/-! ### Runs -/

section Runs

variable [RoundTimer T] {w : Network C} {S S' : Nodes C T} {es : List (C.PublicKey × Event C)}
  {io : C.PublicKey → Io C} {timer : C.PublicKey → T} (hnc : NoCollision C) (hbs : BatchSound C)
  (hf : FewFaults w) (hsep : Separated C)

omit [RoundTimer T] in
theorem exists_leader_of_honest {k : C.PublicKey} (hk : w.Honest k) (r : Round) :
    ∃ a ∈ w.committee.members, getLeader w.committee r = some a :=
  exists_leader (size_pos hk.1) r

include hnc hbs hf hsep

/-- No block that a node has taken or made is faulty. -/
theorem not_faulty (r : SystemRun w (start w io timer) es S) {k : C.PublicKey} (hk : w.Honest k)
    {b : Block C} (hb : Checked (w.env k) b ∨ Ready (S k) b) : ¬ Faulty (w.env k) b := by
  have hcert := fun j hj => certified_of_separated hnc hbs hsep hf r (k := j) hj
  have hI := run_coherent hnc hbs hf r fun j hj => (hcert j hj).2
  have hn := nodes_ok r k
  rintro (⟨tc, htc, hnil⟩ | ⟨round, hround⟩)
  swap
  · obtain ⟨a, -, ha⟩ := exists_leader_of_honest hk round
    exact absurd (ha.symm.trans hround) (by simp)
  have hcases : Checked (w.env k) b ∨ Created (S k) b := by
    rcases hb with hc | hr
    · exact .inl hc
    · exact hr.imp_left fun h => (hn.core.entry (.accept b) h).1
  rcases hcases with hc | hown
  · exact votes_of_verify ((Block.verify_ok hc.2).2.2 tc htc) hnil
  · obtain ⟨round, qc, tc', payload, hm, rfl⟩ := hn.created b hown
    cases htc
    exact votes_of_quorum ((hI.attested k hk).make _ _ _ hm).1 hnil

/-- **The core of an honest node runs**, in every reachable state. -/
theorem running (r : SystemRun w (start w io timer) es S) {k : C.PublicKey} (hk : w.Honest k) :
    (S k).halted = none := by
  induction r with
  | nil => simp [start]
  | @snoc es S x S' r h ih =>
    obtain ⟨-, -, n, hstep, heq⟩ := step_cases h
    by_cases hx : k = x.1
    swap
    · rw [heq, Function.update_of_ne hx]
      exact ih
    subst hx
    rcases hp : (S' x.1).halted with _ | p
    · rfl
    exfalso
    have hn : S' x.1 = n := by rw [heq, Function.update_self]
    have hok := nodes_ok r x.1
    have hcert := certified_of_separated hnc hbs hsep hf (r.snoc h) (k := x.1) hk
    have hclosed := (run_linked (node_run r x.1)
      (certified_of_separated hnc hbs hsep hf r (k := x.1) hk).1).1
    have hend := not_endless hnc hbs hf hsep (r.snoc h) hk
    rw [hp] at hend
    rw [hn] at hp hcert
    rcases halted_step hok hstep hclosed hcert.1 hp with hp' | hlist
    · simp [ih] at hp'
    -- the reasons that are left are about the block
    have hreason : ∃ b, (Checked (w.env x.1) b ∨ Ready (S x.1) b) ∧
        (p = .endless ∨ p = .missingCommitAncestor ∨ p = .missingAncestor ∨
          Faulty (w.env x.1) b) := by
      rcases halted_cases hok hstep hp with hp' | ⟨b, io, -, hpan⟩ | ⟨b, io, hready, -, hpan⟩
      · simp [ih] at hp'
      · obtain ⟨hc, h⟩ := handleProposal_reason io hpan
        exact ⟨b, .inl hc, h⟩
      · exact ⟨b, .inr hready, processBlock_reason io hpan⟩
    obtain ⟨b, hb, rfl | rfl | rfl | hfaulty⟩ := hreason
    · exact hend rfl
    · rcases hlist with h | h | h <;> cases h
    · rcases hlist with h | h | h <;> cases h
    · exact not_faulty hnc hbs hf hsep r hk hb hfaulty

end Runs

end Hotstuff.Consensus.Survival
