import Hotstuff.Consensus.Messages
import Hotstuff.Ideal

/-! # Quorum intersection

What `QC::verify` and `TC::verify` accept is signed by a quorum, for any list of votes. With `N` the
total stake and `f = ⌊(N - 1) / 3⌋`, the common signers of two accepted certificates have more stake
than `f`, and authorities of stake `N - f` are enough for a quorum (`quorum_intersection`). -/

namespace Hotstuff.Consensus.Intersection

open Hotstuff.Primitives Hotstuff.Consensus.Config Hotstuff.Consensus.Messages
open Hotstuff.Consensus.Handlers Hotstuff.Lib.Quorum Hotstuff.Ideal

variable {C : Crypto}

inductive Certificate (C : Crypto) where
  | qc (qc : QC C)
  | tc (tc : TC C)

namespace Certificate

def verify (x : Certificate C) (c : Committee C) : Except (ConsensusError C) Unit :=
  match x with
  | .qc q => q.verify c
  | .tc t => t.verify c

/-- The authors of the votes. -/
def authors : Certificate C → Finset C.PublicKey
  | .qc q => (q.votes.map Prod.fst).toFinset
  | .tc t => (t.votes.map Prod.fst).toFinset

end Certificate

/-- The stake that may be faulty, `⌊(N - 1) / 3⌋`. -/
def maxFaulty (c : Committee C) : ℤ := ((c.total : ℤ) - 1) / 3

variable {c : Committee C}

theorem quorum_of_verify (hno : c.NoOverflow) {x : Certificate C} (h : x.verify c = .ok ()) :
    c.Quorum x.authors := by
  cases x with
  | qc qc => exact quorum_of_check hno (QC.verify_ok h).1
  | tc tc => exact quorum_of_check hno (TC.verify_ok h).1

/-- If there is any stake, the stake that may be faulty is a natural number. -/
theorem exists_maxFaulty (h : 0 < c.total) :
    ∃ f : ℕ, maxFaulty c = f ∧ 3 * f + 1 ≤ c.total ∧ c.total ≤ 3 * f + 3 :=
  ⟨(c.total - 1) / 3, by unfold maxFaulty; omega, by omega, by omega⟩

theorem total_pos_of_quorum (hno : c.NoOverflow) {Q : Finset C.PublicKey} (h : c.Quorum Q) :
    0 < c.total := by
  have hq := h.2
  rw [toNat_threshold hno] at hq
  have hle := weight_le_total c Q
  omega

/-- **The common signers of two accepted certificates** have more stake than may be faulty. -/
theorem maxFaulty_lt_weight (hno : c.NoOverflow) {x y : Certificate C} (hx : x.verify c = .ok ())
    (hy : y.verify c = .ok ()) : maxFaulty c < c.weight (x.authors ∩ y.authors) := by
  have hqx := quorum_of_verify hno hx
  have hqy := quorum_of_verify hno hy
  obtain ⟨f, hf, h3, -⟩ := exists_maxFaulty (total_pos_of_quorum hno hqx)
  have htotal : ∑ a ∈ c.members, (c.stake a).toNat = c.total := weight_members c
  have hlt : f < c.weight (x.authors ∩ y.authors) := by
    refine lt_weight_inter hqx.1 hqy.1 hqx.2 hqy.2 ?_
    rw [htotal, toNat_threshold hno]
    exact two_thirds_threshold h3
  rw [hf]
  exact_mod_cast hlt

/-- **Authorities of stake `N - f` are a quorum**, also in the arithmetic of `u32`. -/
theorem threshold_le_sum (hno : c.NoOverflow) {names : List C.PublicKey} (hnd : names.Nodup)
    (hw : c.total - maxFaulty c ≤ c.weight names.toFinset) :
    c.quorumThreshold ≤ (names.map c.stake).sum := by
  have hle := weight_le_total c names.toFinset
  have hsum := weight_toFinset c hnd
  have hpos : 0 < c.total := by
    by_contra h0
    unfold maxFaulty at hw
    omega
  obtain ⟨f, hf, h3, h3'⟩ := exists_maxFaulty hpos
  have hfit : ((names.map c.stake).map UInt32.toNat).sum < 2 ^ 32 := by
    unfold Committee.NoOverflow at hno
    omega
  rw [UInt32.le_iff_toNat_le, toNat_sum _ hfit, ← hsum, toNat_threshold hno]
  have hreach := threshold_le_of_lt h3' h3
  omega

/-- **Quorum intersection** of the certificates that the code accepts, for any rounds and hashes. -/
theorem quorum_intersection (hno : c.NoOverflow) :
    (∀ x y : Certificate C, x.verify c = .ok () → y.verify c = .ok () →
      maxFaulty c < c.weight (x.authors ∩ y.authors) ∧
        ∀ bad : Finset C.PublicKey, c.weight bad ≤ maxFaulty c →
          ∃ k ∈ x.authors ∩ y.authors, k ∈ c.members ∧ k ∉ bad) ∧
      ∀ names : List C.PublicKey, names.Nodup → (∀ k ∈ names, k ∈ c.members) →
        c.total - maxFaulty c ≤ c.weight names.toFinset →
          c.quorumThreshold ≤ (names.map c.stake).sum := by
  refine ⟨fun x y hx hy => ?_, fun names hnd _ hw => threshold_le_sum hno hnd hw⟩
  have hlt := maxFaulty_lt_weight hno hx hy
  refine ⟨hlt, fun bad hbad => ?_⟩
  obtain ⟨k, hk, hnot⟩ := exists_not_mem_of_lt (w := fun k => (c.stake k).toNat)
    (A := x.authors ∩ y.authors) (B := bad) (f := c.weight bad)
    (by exact_mod_cast hbad.trans_lt hlt)
    le_rfl
  exact ⟨k, hk, (quorum_of_verify hno hx).1 (Finset.mem_inter.mp hk).1, hnot⟩

/-- A QC of three authorities of four. -/
def threeVotes : QC crypto :=
  ⟨crypto.defaultDigest, 5, [key 0, key 1, key 2].map fun k =>
    (k, crypto.sign k (voteDigest (C := crypto) crypto.defaultDigest 5))⟩

/-- A TC of three authorities of four. -/
def threeTimeouts : TC crypto :=
  ⟨7, [key 3, key 2, key 1].map fun k => (k, crypto.sign k (timeoutDigest (C := crypto) 7 4), 4)⟩

/-- One of the two common signers is faulty. -/
theorem quorum_intersection_four :
    ∃ k ∈ (Certificate.qc threeVotes).authors ∩ (Certificate.tc threeTimeouts).authors,
      k ∈ (four 0).committee.members ∧ k ∉ ({key 1} : Finset crypto.PublicKey) :=
  ((quorum_intersection (c := (four 0).committee) (by decide)).1 (.qc threeVotes)
    (.tc threeTimeouts) rfl rfl).2 _ (by decide)

end Hotstuff.Consensus.Intersection
