import Hotstuff.Consensus.Queues

/-! # The system of nodes

Every honest authority runs a node; the others are Byzantine. The messages that a node takes are
arbitrary (lost, delayed, repeated, reordered or invented) but for the signatures of honest
authorities, which are not forged: one that verifies is for a digest that its owner has signed
(`Unforged`). Replies to the requests of the synchronizer are proposals like any other.

Each node of a run of the system makes a run of its own (`node_run`). -/

namespace Hotstuff.Consensus.System

open Hotstuff.Primitives Hotstuff.Consensus.Config Hotstuff.Consensus.Messages
open Hotstuff.Consensus.Pacing Hotstuff.Consensus.Handlers Hotstuff.Consensus.Tasks
open Hotstuff.Consensus.Queues Hotstuff.Consensus.Wiring Hotstuff.Lib.Transition

variable {C : Crypto} {T : Type}

/-- What is fixed for all nodes, and the authorities that are not honest. -/
structure Network (C : Crypto) where
  committee : Committee C
  byzantine : Finset C.PublicKey
  batchAsBlock : C.Batch → Option (Block C)

def Network.env (w : Network C) (k : C.PublicKey) : Env C := ⟨k, w.committee, w.batchAsBlock⟩

/-- The authority follows the protocol. -/
def Network.Honest (w : Network C) (k : C.PublicKey) : Prop :=
  k ∈ w.committee.members ∧ k ∉ w.byzantine

instance (w : Network C) (k : C.PublicKey) : Decidable (w.Honest k) := by
  unfold Network.Honest; infer_instance

/-- The nodes of all authorities; those of the Byzantine ones do not matter. -/
abbrev Nodes (C : Crypto) (T : Type) := C.PublicKey → Node C T

/-! ### Signatures -/

/-- A signature with its owner and the digest it is for. -/
abbrev Signed (C : Crypto) := C.PublicKey × C.Digest × C.Signature

def qcSignatures (qc : QC C) : List (Signed C) := qc.votes.map fun v => (v.1, qc.digest, v.2)

def tcSignatures (tc : TC C) : List (Signed C) :=
  tc.votes.map fun v => (v.1, timeoutDigest tc.round v.2.2, v.2.1)

/-- The signatures in a message. -/
def signatures : ConsensusMessage C → List (Signed C)
  | .propose b =>
    (b.author, b.digest, b.signature) :: (qcSignatures b.qc ++ (b.tc.map tcSignatures).getD [])
  | .vote v => [(v.author, v.digest, v.signature)]
  | .timeout t => (t.author, t.digest, t.signature) :: qcSignatures t.highQc
  | .tc tc => tcSignatures tc

/-- The digest that the core signs with an entry of its trace. -/
def coreSigns : Action C → Option C.Digest
  | .vote b => some (voteDigest b.digest b.round)
  | .timeout t => some t.digest
  | _ => none

def proposerSigns : ProposerAction C → Option C.Digest
  | .created b => some b.digest
  | _ => none

/-- The digests that the node has signed. -/
def signed (n : Node C T) : List C.Digest :=
  n.core.trace.filterMap coreSigns ++ n.proposer.trace.filterMap proposerSigns

/-- The signatures of honest authorities are not forged. -/
def Unforged (w : Network C) (S : Nodes C T) (m : ConsensusMessage C) : Prop :=
  ∀ x ∈ signatures m, w.Honest x.1 → C.verify x.2.2 x.2.1 x.1 = true → x.2.1 ∈ signed (S x.1)

instance (w : Network C) (S : Nodes C T) (m : ConsensusMessage C) : Decidable (Unforged w S m) := by
  unfold Unforged; infer_instance

/-- A message that the event brings is unforged. -/
def Deliverable (w : Network C) (S : Nodes C T) : Event C → Prop
  | .message m _ => Unforged w S m
  | _ => True

instance (w : Network C) (S : Nodes C T) (e : Event C) : Decidable (Deliverable w S e) := by
  cases e <;> simp only [Deliverable] <;> infer_instance

/-! ### Runs -/

variable [RoundTimer T]

/-- **One event of an honest node.** -/
def step (w : Network C) (S : Nodes C T) (x : C.PublicKey × Event C) : Option (Nodes C T) :=
  if w.Honest x.1 ∧ Deliverable w S x.2 then
    ((S x.1).step (w.env x.1) x.2).map fun n => Function.update S x.1 n
  else none

/-- All nodes start; none restarts. -/
def start (w : Network C) (io : C.PublicKey → Io C) (timer : C.PublicKey → T) : Nodes C T :=
  fun k => Node.boot (w.env k) (io k) (timer k)

abbrev SystemRun (w : Network C) (S₀ : Nodes C T) :
    List (C.PublicKey × Event C) → Nodes C T → Prop :=
  Run (fun S x S' => step w S x = some S') S₀

variable {w : Network C} {S S' S₀ : Nodes C T} {es : List (C.PublicKey × Event C)}

theorem step_cases {x : C.PublicKey × Event C} (h : step w S x = some S') :
    w.Honest x.1 ∧ Deliverable w S x.2 ∧
      ∃ n, (S x.1).step (w.env x.1) x.2 = some n ∧ S' = Function.update S x.1 n := by
  unfold step at h
  split_ifs at h with hx
  obtain ⟨n, hn, rfl⟩ := Option.map_eq_some_iff.mp h
  exact ⟨hx.1, hx.2, n, hn, rfl⟩

/-- The events of one node. -/
def eventsOf (k : C.PublicKey) (es : List (C.PublicKey × Event C)) : List (Event C) :=
  (es.filter fun x => x.1 = k).map Prod.snd

/-- **Each node makes a run of its own.** -/
theorem node_run (r : SystemRun w S₀ es S) (k : C.PublicKey) :
    NodeRun (w.env k) (S₀ k) (eventsOf k es) (S k) := by
  induction r with
  | nil => exact .nil
  | @snoc es S x S' r h ih =>
    obtain ⟨-, -, n, hn, rfl⟩ := step_cases h
    unfold eventsOf at ih ⊢
    rw [List.filter_append, List.map_append]
    by_cases hk : x.1 = k
    · subst hk
      simpa using ih.snoc hn
    · simpa [hk, Function.update_of_ne (Ne.symm hk)] using ih

variable {io : C.PublicKey → Io C} {timer : C.PublicKey → T}

/-- The invariant of a node holds of every node. -/
theorem nodes_ok (r : SystemRun w (start w io timer) es S) (k : C.PublicKey) :
    Queues.Ok (w.env k) (S k) :=
  run_ok (node_run r k)

end Hotstuff.Consensus.System
