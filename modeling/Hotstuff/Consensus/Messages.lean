import Hotstuff.Consensus.Config

/-! # Messages: blocks, votes, timeouts and the two certificates

The data and the checks of `messages.rs`. A `QC` certifies a block by its digest and round; a `TC`
certifies that a quorum timed out in a round and carries, for each signer, the round of the highest
`QC` it knew. Both verifiers run the same loop over the signers (`checkQuorum`), and what it accepts
is a quorum (`quorum_of_check`). -/

namespace Hotstuff.Consensus.Messages

open Hotstuff.Primitives Hotstuff.Consensus.Config

variable {C : Crypto}

/-- The errors of the modelled functions. -/
inductive ConsensusError (C : Crypto) where
  | serializationError
  | storeError
  | invalidSignature
  | authorityReuse (name : C.PublicKey)
  | unknownAuthority (name : C.PublicKey)
  | qcRequiresQuorum
  | tcRequiresQuorum
  | wrongLeader (digest : C.Digest) (leader : C.PublicKey) (round : Round)

/-! ### Certificates -/

/-- A quorum certificate. -/
structure QC (C : Crypto) where
  hash : C.Digest
  round : Round
  votes : List (C.PublicKey × C.Signature)

/-- A timeout certificate: the last component of an entry is the round of the signer's high QC. -/
structure TC (C : Crypto) where
  round : Round
  votes : List (C.PublicKey × C.Signature × Round)

def voteDigest (hash : C.Digest) (round : Round) : C.Digest := C.hash (.vote hash round)

def timeoutDigest (round highQcRound : Round) : C.Digest := C.hash (.timeout round highQcRound)

/-- The loop of `QC::verify` and `TC::verify` over the signers, with the set `used` and the `weight`
so far, and the check of the final weight. -/
def checkQuorum (c : Committee C) (noQuorum : ConsensusError C) :
    List C.PublicKey → List C.PublicKey → Stake → Except (ConsensusError C) Unit
  | [], _, weight => if c.quorumThreshold ≤ weight then .ok () else .error noQuorum
  | name :: names, used, weight =>
    if name ∈ used then .error (.authorityReuse name)
    else if 0 < c.stake name then
      checkQuorum c noQuorum names (name :: used) (weight + c.stake name)
    else .error (.unknownAuthority name)

namespace QC

def genesis : QC C := ⟨C.defaultDigest, 0, []⟩

/-- `qc == QC::genesis()`: the comparison of `QC`s looks at the hash and the round only. -/
def IsGenesis (qc : QC C) : Prop := qc.hash = C.defaultDigest ∧ qc.round = 0

instance (qc : QC C) : Decidable qc.IsGenesis := by unfold IsGenesis; infer_instance

def digest (qc : QC C) : C.Digest := voteDigest qc.hash qc.round

def verify (qc : QC C) (c : Committee C) : Except (ConsensusError C) Unit :=
  match checkQuorum c .qcRequiresQuorum (qc.votes.map Prod.fst) [] 0 with
  | .error e => .error e
  | .ok () => if C.verifyBatch qc.digest qc.votes then .ok () else .error .invalidSignature

end QC

namespace TC

def verify (tc : TC C) (c : Committee C) : Except (ConsensusError C) Unit :=
  match checkQuorum c .tcRequiresQuorum (tc.votes.map Prod.fst) [] 0 with
  | .error e => .error e
  | .ok () =>
    if tc.votes.all fun v => C.verify v.2.1 (timeoutDigest tc.round v.2.2) v.1 then .ok ()
    else .error .invalidSignature

def highQcRounds (tc : TC C) : List Round := tc.votes.map fun v => v.2.2

end TC

/-! ### Blocks -/

structure Block (C : Crypto) where
  qc : QC C
  tc : Option (TC C)
  author : C.PublicKey
  round : Round
  payload : List C.Digest
  signature : C.Signature

namespace Block

def genesis : Block C := ⟨QC.genesis, none, C.defaultKey, 0, [], C.defaultSignature⟩

def parent (b : Block C) : C.Digest := b.qc.hash

/-- The digest covers the author, the round, the payload and the hash in the `QC`. -/
def digest (b : Block C) : C.Digest := C.hash (.block b.author b.round b.payload b.qc.hash)

/-- `Block::new`: the signature does not enter the digest. -/
def new (qc : QC C) (tc : Option (TC C)) (author : C.PublicKey) (round : Round)
    (payload : List C.Digest) : Block C :=
  let block : Block C := ⟨qc, tc, author, round, payload, C.defaultSignature⟩
  { block with signature := C.sign author block.digest }

/-- The check of an embedded `QC`: the first one is accepted without votes. -/
def verifyQc (qc : QC C) (c : Committee C) : Except (ConsensusError C) Unit :=
  if qc.IsGenesis then .ok () else qc.verify c

/-- The check of the embedded `TC`, if any. -/
def verifyTc (tc : Option (TC C)) (c : Committee C) : Except (ConsensusError C) Unit :=
  match tc with
  | none => .ok ()
  | some tc => tc.verify c

def verify (b : Block C) (c : Committee C) : Except (ConsensusError C) Unit :=
  if 0 < c.stake b.author then
    if C.verify b.signature b.digest b.author then
      match verifyQc b.qc c with
      | .error e => .error e
      | .ok () => verifyTc b.tc c
    else .error .invalidSignature
  else .error (.unknownAuthority b.author)

end Block

/-! ### Votes and timeouts -/

structure Vote (C : Crypto) where
  hash : C.Digest
  round : Round
  author : C.PublicKey
  signature : C.Signature

namespace Vote

def digest (v : Vote C) : C.Digest := voteDigest v.hash v.round

def new (block : Block C) (author : C.PublicKey) : Vote C :=
  ⟨block.digest, block.round, author, C.sign author (voteDigest block.digest block.round)⟩

def verify (v : Vote C) (c : Committee C) : Except (ConsensusError C) Unit :=
  if 0 < c.stake v.author then
    if C.verify v.signature v.digest v.author then .ok () else .error .invalidSignature
  else .error (.unknownAuthority v.author)

end Vote

structure Timeout (C : Crypto) where
  highQc : QC C
  round : Round
  author : C.PublicKey
  signature : C.Signature

namespace Timeout

def digest (t : Timeout C) : C.Digest := timeoutDigest t.round t.highQc.round

def new (highQc : QC C) (round : Round) (author : C.PublicKey) : Timeout C :=
  ⟨highQc, round, author, C.sign author (timeoutDigest round highQc.round)⟩

def verify (t : Timeout C) (c : Committee C) : Except (ConsensusError C) Unit :=
  if 0 < c.stake t.author then
    if C.verify t.signature t.digest t.author then Block.verifyQc t.highQc c
    else .error .invalidSignature
  else .error (.unknownAuthority t.author)

end Timeout

/-- The messages of the consensus that reach the core. -/
inductive ConsensusMessage (C : Crypto) where
  | propose (block : Block C)
  | vote (vote : Vote C)
  | timeout (timeout : Timeout C)
  | tc (tc : TC C)

/-! ### What the checks give -/

variable {c : Committee C}

/-- What the loop over the signers establishes. -/
theorem check_ok {e : ConsensusError C} : ∀ {names used : List C.PublicKey} {weight : Stake},
    checkQuorum c e names used weight = .ok () →
      names.Nodup ∧ (∀ k ∈ names, k ∉ used ∧ 0 < c.stake k) ∧
        c.quorumThreshold ≤ weight + (names.map c.stake).sum
  | [], used, weight, h => by
    unfold checkQuorum at h
    split_ifs at h with hq
    exact ⟨List.nodup_nil, by simp, by simpa using hq⟩
  | name :: names, used, weight, h => by
    unfold checkQuorum at h
    split_ifs at h with hu hs
    obtain ⟨h1, h2, h3⟩ := check_ok h
    refine ⟨List.nodup_cons.mpr ⟨fun hm => (h2 name hm).1 (by simp), h1⟩, ?_, ?_⟩
    · intro k hk
      rcases List.mem_cons.mp hk with rfl | hk
      · exact ⟨hu, hs⟩
      · exact ⟨fun hm => (h2 k hk).1 (by simp [hm]), (h2 k hk).2⟩
    · rwa [List.map_cons, List.sum_cons, ← UInt32.add_assoc]

/-- Distinct authorities whose stakes reach the threshold, summed in `u32`, are accepted. -/
theorem check_of_sum {e : ConsensusError C} : ∀ {names used : List C.PublicKey} {weight : Stake},
    names.Nodup → (∀ k ∈ names, k ∉ used ∧ 0 < c.stake k) →
      c.quorumThreshold ≤ weight + (names.map c.stake).sum →
        checkQuorum c e names used weight = .ok ()
  | [], used, weight, _, _, hq => by
    unfold checkQuorum
    exact if_pos (by simpa using hq)
  | name :: names, used, weight, hnd, hs, hq => by
    rw [List.nodup_cons] at hnd
    obtain ⟨hu, hpos⟩ := hs name List.mem_cons_self
    unfold checkQuorum
    rw [if_neg hu, if_pos hpos]
    refine check_of_sum hnd.2 (fun k hk => ⟨fun hm => ?_, ?_⟩) ?_
    · rcases List.mem_cons.mp hm with rfl | hm
      · exact hnd.1 hk
      · exact (hs k (List.mem_cons_of_mem _ hk)).1 hm
    · exact (hs k (List.mem_cons_of_mem _ hk)).2
    · rwa [List.map_cons, List.sum_cons, ← UInt32.add_assoc] at hq

/-- Distinct authorities whose stakes reach the threshold, summed in `u32`, are a quorum. -/
theorem quorum_of_sum (hno : c.NoOverflow) {names : List C.PublicKey} (hnd : names.Nodup)
    (hs : ∀ k ∈ names, 0 < c.stake k) (hq : c.quorumThreshold ≤ (names.map c.stake).sum) :
    c.Quorum names.toFinset := by
  have hsub : names.toFinset ⊆ c.members := fun k hk =>
    stake_pos_mem c (hs k (List.mem_toFinset.mp hk))
  have hw := weight_toFinset c hnd
  have hle := weight_le_total c names.toFinset
  refine ⟨hsub, ?_⟩
  unfold Committee.NoOverflow at hno
  rw [hw, ← toNat_sum _ (by rw [← hw]; omega)]
  exact UInt32.le_iff_toNat_le.mp hq

/-- **The signers that the loop accepts are a quorum.** -/
theorem quorum_of_check (hno : c.NoOverflow) {e : ConsensusError C} {names : List C.PublicKey}
    (h : checkQuorum c e names [] 0 = .ok ()) : c.Quorum names.toFinset := by
  obtain ⟨h1, h2, h3⟩ := check_ok h
  exact quorum_of_sum hno h1 (fun k hk => (h2 k hk).2) (by simpa using h3)

/-- No list without signers is accepted. -/
theorem ne_nil_of_check {e : ConsensusError C} {names : List C.PublicKey}
    (h : checkQuorum c e names [] 0 = .ok ()) : names ≠ [] := by
  rintro rfl
  unfold checkQuorum at h
  split_ifs at h with hq
  have := threshold_pos c
  rw [UInt32.lt_iff_toNat_lt] at this
  rw [UInt32.le_iff_toNat_le] at hq
  omega

theorem QC.verify_ok {qc : QC C} (h : qc.verify c = .ok ()) :
    checkQuorum c .qcRequiresQuorum (qc.votes.map Prod.fst) [] 0 = .ok () ∧
      C.verifyBatch qc.digest qc.votes = true := by
  unfold QC.verify at h
  split at h
  · cases h
  · rename_i hc
    split_ifs at h with hv
    exact ⟨hc, hv⟩

theorem TC.verify_ok {tc : TC C} (h : tc.verify c = .ok ()) :
    checkQuorum c .tcRequiresQuorum (tc.votes.map Prod.fst) [] 0 = .ok () ∧
      ∀ v ∈ tc.votes, C.verify v.2.1 (timeoutDigest tc.round v.2.2) v.1 = true := by
  unfold TC.verify at h
  split at h
  · cases h
  · rename_i hc
    split_ifs at h with hv
    exact ⟨hc, List.all_eq_true.mp hv⟩

theorem Block.verify_ok {b : Block C} (h : b.verify c = .ok ()) :
    C.verify b.signature b.digest b.author = true ∧ (b.qc.IsGenesis ∨ b.qc.verify c = .ok ()) ∧
      ∀ tc, b.tc = some tc → tc.verify c = .ok () := by
  unfold Block.verify at h
  split_ifs at h with hs hv
  split at h
  · cases h
  · rename_i hq
    refine ⟨hv, ?_, fun tc htc => ?_⟩
    · unfold Block.verifyQc at hq
      split_ifs at hq with hg
      · exact .inl hg
      · exact .inr hq
    · rw [htc] at h; exact h

theorem Vote.verify_ok {v : Vote C} (h : v.verify c = .ok ()) :
    0 < c.stake v.author ∧ C.verify v.signature v.digest v.author = true := by
  unfold Vote.verify at h
  split_ifs at h with hs hv
  exact ⟨hs, hv⟩

theorem Timeout.verify_ok {t : Timeout C} (h : t.verify c = .ok ()) :
    0 < c.stake t.author ∧ C.verify t.signature t.digest t.author = true ∧
      (t.highQc.IsGenesis ∨ t.highQc.verify c = .ok ()) := by
  unfold Timeout.verify at h
  split_ifs at h with hs hv
  refine ⟨hs, hv, ?_⟩
  unfold Block.verifyQc at h
  split_ifs at h with hg
  · exact .inl hg
  · exact .inr h

end Hotstuff.Consensus.Messages
