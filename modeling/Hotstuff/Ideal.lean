import Hotstuff.Consensus.System

/-! # An ideal crypto

Digests are terms: the hash of a string is the string, written as a tree, so there are no
collisions, and no hash is the digest of a batch or the all-zero digest. A signature is the key with
the digest it signs. This is a `Crypto` with all the properties that are assumed of one in this
development, in which runs can be computed. `solo` is a committee of one authority, whose node needs
no message of the network to make progress; `fourRounds` are the events of a committee of four, in
which the leader of round 3 is Byzantine. -/

namespace Hotstuff.Ideal

open Hotstuff.Primitives Hotstuff.Consensus.Config Hotstuff.Consensus.Messages
open Hotstuff.Consensus.Handlers Hotstuff.Consensus.Pacing Hotstuff.Consensus.Wiring
open Hotstuff.Consensus.System Hotstuff.Lib.Transition

inductive Tree where
  | leaf (n : ℕ)
  | node (l r : Tree)
deriving DecidableEq

namespace Tree

def ofList : List Tree → Tree
  | [] => leaf 0
  | x :: xs => node x (ofList xs)

def ofPreimage : Preimage ℕ Tree → Tree
  | .block author round payload qcHash =>
    node (leaf 1) (node (leaf author) (node (leaf round.toNat) (node (ofList payload) qcHash)))
  | .vote hash round => node (leaf 2) (node hash (leaf round.toNat))
  | .timeout round highQcRound => node (leaf 3) (node (leaf round.toNat) (leaf highQcRound.toNat))

theorem ofList_injective : Function.Injective ofList
  | [], [], _ => rfl
  | [], _ :: _, h => by simp [ofList] at h
  | _ :: _, [], h => by simp [ofList] at h
  | x :: xs, y :: ys, h => by
    simp only [ofList, node.injEq] at h
    rw [h.1, ofList_injective h.2]

theorem ofPreimage_injective : Function.Injective ofPreimage := by
  intro x y h
  cases x <;> cases y <;> simp only [ofPreimage, node.injEq, leaf.injEq, UInt64.toNat_inj] at h
  · obtain ⟨-, rfl, rfl, hp, rfl⟩ := h
    rw [ofList_injective hp]
  all_goals simp_all

end Tree

/-- The ideal crypto. Keys and batches are numbers. -/
def crypto : Crypto where
  PublicKey := ℕ
  Digest := Tree
  Signature := ℕ × Tree
  Batch := ℕ
  defaultKey := 0
  defaultDigest := .leaf 0
  defaultSignature := (0, .leaf 0)
  hash := Tree.ofPreimage
  batchDigest x := .leaf (x + 1)
  sign k d := (k, d)
  verify s d k := s = (k, d)
  verifyBatch d votes := votes.all fun v => v.2 = (v.1, d)

def key (k : ℕ) : crypto.PublicKey := k

theorem noCollision : NoCollision crypto := Tree.ofPreimage_injective

theorem batchSound : BatchSound crypto := fun _ _ h v hv => List.all_eq_true.mp h v hv

theorem batchComplete : BatchComplete crypto := fun _ _ h => List.all_eq_true.mpr h

theorem signVerifies : SignVerifies crypto := by
  intro k d
  simp [crypto]

theorem hash_ne_default (x : Preimage ℕ Tree) : crypto.hash x ≠ crypto.defaultDigest := by
  cases x <;> simp [crypto, Tree.ofPreimage]

theorem hash_ne_batch (x : Preimage ℕ Tree) (y : ℕ) : crypto.hash x ≠ crypto.batchDigest y := by
  cases x <;> simp [crypto, Tree.ofPreimage]

/-! ### A committee of one -/

def solo : Env crypto where
  name := (0 : ℕ)
  committee := ⟨[((0 : ℕ), 1)], List.nodup_singleton _⟩
  batchAsBlock _ := none

/-- All reads and writes succeed, at time `0`. -/
def calm : Io crypto := ⟨0, 0, fun _ => false, fun _ => false⟩

def soloStart : Node crypto (Timer ℚ) := Node.boot solo calm (Timer.new 0 1000)

def soloRun (es : List (Event crypto)) : Option (Node crypto (Timer ℚ)) :=
  exec (fun n e => n.step solo e) soloStart es

theorem run_of_soloRun (es : List (Event crypto)) {n : Node crypto (Timer ℚ)}
    (h : soloRun es = some n) : NodeRun solo soloStart es n :=
  run_of_exec _ es soloStart h

/-! ### Systems of honest authorities -/

theorem nodup_range_keys (n : ℕ) :
    (((List.range n).map fun k => (k, (1 : Stake))).map Prod.fst).Nodup := by
  rw [List.map_map, show Prod.fst ∘ (fun k : ℕ => (k, (1 : Stake))) = id from rfl, List.map_id]
  exact List.nodup_range

/-- Authorities `0` to `n - 1`, of stake 1, all of them honest. -/
def honestNetwork (n : ℕ) : Network crypto where
  committee := ⟨(List.range n).map fun k => (k, (1 : Stake)), nodup_range_keys n⟩
  byzantine := ∅
  batchAsBlock _ := none

def calmStart (n : ℕ) : Nodes crypto (Timer ℚ) :=
  start (honestNetwork n) (fun _ => calm) fun _ => Timer.new 0 1000

def systemRun (n : ℕ) (es : List (ℕ × Event crypto)) : Option (Nodes crypto (Timer ℚ)) :=
  exec (step (honestNetwork n)) (calmStart n) es

theorem run_of_systemRun {n : ℕ} (es : List (ℕ × Event crypto)) {S : Nodes crypto (Timer ℚ)}
    (h : systemRun n es = some S) : SystemRun (honestNetwork n) (calmStart n) es S :=
  run_of_exec _ es (calmStart n) h

/-- The authority of a committee of one. -/
theorem eq_of_honest_solo {k : crypto.PublicKey} (hk : (honestNetwork 1).Honest k) : k = key 0 := by
  have hk' : k ∈ [key 0] := List.mem_toFinset.mp hk.1
  exact List.mem_singleton.mp hk'

/-! ### A committee of four -/

def four (name : ℕ) : Env crypto where
  name := name
  committee := ⟨[((0 : ℕ), 1), ((1 : ℕ), 1), ((2 : ℕ), 1), ((3 : ℕ), 1)], by decide⟩
  batchAsBlock _ := none

/-- The QC of a block, with the votes of some authorities. -/
def qcOf (block : Block crypto) (signers : List ℕ) : QC crypto :=
  ⟨block.digest, block.round, signers.map fun k => (k, (Vote.new block (key k)).signature)⟩

namespace Four

/-- The blocks of a run of four rounds: that of the first round carries the batch `7`. -/
def first : Block crypto := Block.new QC.genesis none (key 1) 1 [crypto.batchDigest (7 : ℕ)]

def second : Block crypto := Block.new (qcOf first [2, 0, 1]) none (key 2) 2 []

def third : Block crypto :=
  Block.new (qcOf second [0, 1, 2]) none (key 3) 3 [crypto.batchDigest (7 : ℕ)]

/-- The other block that the leader of round 3 makes. -/
def twin : Block crypto := Block.new (qcOf second [0, 1, 2]) none (key 3) 3 []

def fourth : Block crypto := Block.new (qcOf third [0, 1, 3]) none (key 0) 4 []

def proposal (block : Block crypto) : Event crypto := .message (.propose block) calm

def vote (block : Block crypto) (k : ℕ) : Event crypto :=
  .message (.vote (Vote.new block (key k))) calm

/-- Three blocks arrive at a node, the first one before its batch. -/
def arrivals : List (Event crypto) :=
  [proposal first, .payloadMessage, .batch (7 : ℕ), .payloadReady 0, .loopback calm,
    proposal second, proposal third]

end Four

open Four

/-- The first of the four nodes. -/
def follower : Node crypto (Timer ℚ) := Node.boot (four 0) calm (Timer.new 0 1000)

def followerRun (es : List (Event crypto)) : Option (Node crypto (Timer ℚ)) :=
  exec (fun n e => n.step (four 0) e) follower es

theorem run_of_followerRun (es : List (Event crypto)) {n : Node crypto (Timer ℚ)}
    (h : followerRun es = some n) : NodeRun (four 0) follower es n :=
  run_of_exec _ es follower h

/-- Four authorities, the last of which is Byzantine. -/
def fourNetwork : Network crypto where
  committee := (four 0).committee
  byzantine := {(3 : ℕ)}
  batchAsBlock _ := none

/-- The honest authorities store the batch, and two of them lead the first two rounds. -/
def honestRounds : List (ℕ × Event crypto) :=
  [(0, .batch (7 : ℕ)), (1, .batch (7 : ℕ)), (2, .batch (7 : ℕ)), (1, .digest),
    (1, .proposerMessage [crypto.batchDigest (7 : ℕ)]), (1, .loopback calm),
    (0, proposal first), (2, proposal first), (2, vote first 0), (2, vote first 1),
    (2, .proposerMessage []), (2, .proposerMessage []), (2, .loopback calm),
    (0, proposal second), (1, proposal second)]

/-- The Byzantine leader of round 3 sends two blocks, and votes for one of them. -/
def byzantineRound : List (ℕ × Event crypto) :=
  [(0, proposal third), (1, proposal third), (2, proposal twin), (0, vote third 1),
    (0, vote third 3), (0, .proposerMessage []), (0, .proposerMessage []),
    (0, .proposerMessage []), (0, .proposerMessage []), (0, .loopback calm),
    (1, proposal fourth)]

def fourRounds : List (ℕ × Event crypto) := honestRounds ++ byzantineRound

def fourStart : Nodes crypto (Timer ℚ) :=
  start fourNetwork (fun _ => calm) fun _ => Timer.new 0 1000

def fourRun (es : List (ℕ × Event crypto)) : Option (Nodes crypto (Timer ℚ)) :=
  exec (step fourNetwork) fourStart es

theorem run_of_fourRun (es : List (ℕ × Event crypto)) {S : Nodes crypto (Timer ℚ)}
    (h : fourRun es = some S) : SystemRun fourNetwork fourStart es S :=
  run_of_exec _ es fourStart h

/-- The authorities that are not Byzantine. -/
theorem honest_four {k : crypto.PublicKey} (h : fourNetwork.Honest k) :
    k = key 0 ∨ k = key 1 ∨ k = key 2 := by
  have hk : k ∈ [key 0, key 1, key 2, key 3] := List.mem_toFinset.mp h.1
  have hne : k ≠ key 3 := fun hk => h.2 (hk ▸ Finset.mem_singleton_self _)
  simpa [hne] using hk

end Hotstuff.Ideal
