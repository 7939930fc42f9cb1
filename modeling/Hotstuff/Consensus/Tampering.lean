import Hotstuff.Consensus.Coherence
import Hotstuff.Ideal

/-! # What the digest of a block does not cover

The digest, which the author signs, covers the hash in the QC of a block but not the round of the
QC, and nothing of the TC; `make_vote` reads both. Two copies of a block with the same digest get
the same decision exactly if both are justified or neither is (`same_decision_iff`). A block that is
justified by its TC alone is not any more once the TC is taken off, which takes no key
(`strip_not_voted`). -/

namespace Hotstuff.Consensus.Tampering

open Hotstuff.Primitives Hotstuff.Consensus.Config Hotstuff.Consensus.Messages
open Hotstuff.Consensus.Pacing Hotstuff.Consensus.Handlers Hotstuff.Consensus.Locking
open Hotstuff.Consensus.Coherence Hotstuff.Ideal

variable {C : Crypto} {T : Type} {env : Env C} {c : Committee C} {b b' : Block C}

/-- The QC of the block is of the round before. -/
def ByQc (b : Block C) : Prop := b.qc.round + 1 = b.round

/-- The TC of the block is of the round before, and its QC is not below a round that the TC
reports. -/
def ByTc (b : Block C) : Prop :=
  ∃ tc, b.tc = some tc ∧ tc.round + 1 = b.round ∧ ∀ h ∈ tc.highQcRounds, h ≤ b.qc.round

/-- A verified TC is not empty, so that the second rule has a value. -/
theorem safetyRule2_of_verify (hv : b.verify c = .ok ()) : ∃ rule2, safetyRule2 b = .ok rule2 ∧
    (rule2 = true ↔ ByQc b ∨ ByTc b) := by
  have hne : ∀ tc, b.tc = some tc → tc.votes ≠ [] := fun tc htc h => by
    have hq := (TC.verify_ok ((Block.verify_ok hv).2.2 tc htc)).1
    exact ne_nil_of_check hq (by rw [h]; rfl)
  have hiff : safetyRule2 b = .ok true ↔ ByQc b ∨ ByTc b := by
    rw [safetyRule2_iff]
    exact and_iff_right hne
  rcases h : safetyRule2 b with e | rule2
  · unfold safetyRule2 at h
    rcases htc : b.tc with _ | tc
    · simp [htc] at h
    · rcases hm : tc.highQcRounds.max? with _ | m
      · exact absurd (by simpa [TC.highQcRounds] using hm) (hne tc htc)
      · simp [htc, hm] at h
  · rw [h, Except.ok.injEq] at hiff
    exact ⟨rule2, rfl, hiff⟩

variable (env) in
/-- What `make_vote` returns for a verified block. -/
theorem makeVote_of_verify (hv : b.verify c = .ok ()) (s : Core C T) :
    (s.lastVotedRound < b.round ∧ (ByQc b ∨ ByTc b) ∧
        (makeVote env s b).2 = .ok (some (Vote.new b env.name))) ∨
      (¬ (s.lastVotedRound < b.round ∧ (ByQc b ∨ ByTc b)) ∧ (makeVote env s b).2 = .ok none) := by
  obtain ⟨rule2, h, hiff⟩ := safetyRule2_of_verify hv
  unfold makeVote
  simp only [h]
  split_ifs with hvote
  · exact .inl ⟨hvote.1, hiff.mp hvote.2, rfl⟩
  · exact .inr ⟨fun hno => hvote ⟨hno.1, hiff.mpr hno.2⟩, rfl⟩

/-- **Two verified blocks with the same digest** get the same decision if and only if they are not
above the last voted round, or both are justified or neither is. -/
theorem same_decision_iff (hnc : NoCollision C) (hd : b.digest = b'.digest)
    (hv : b.verify c = .ok ()) (hv' : b'.verify c = .ok ()) (s : Core C T) :
    (makeVote env s b).2 = (makeVote env s b').2 ↔
      (s.lastVotedRound < b.round → (ByQc b ∨ ByTc b ↔ ByQc b' ∨ ByTc b')) := by
  have hround := (digest_inj hnc hd).2.1
  have hvote : Vote.new b env.name = Vote.new b' env.name := by unfold Vote.new; rw [hd, hround]
  rcases makeVote_of_verify env hv s with ⟨hr, hj, h⟩ | ⟨hno, h⟩ <;>
    rcases makeVote_of_verify env hv' s with ⟨hr', hj', h'⟩ | ⟨hno', h'⟩ <;> rw [h, h']
  · exact iff_of_true (by rw [hvote]) fun _ => iff_of_true hj hj'
  · refine iff_of_false (by simp) fun hiff => hno' ⟨hround ▸ hr, (hiff hr).mp hj⟩
  · refine iff_of_false (by simp) fun hiff => ?_
    have hr : s.lastVotedRound < b.round := hround ▸ hr'
    exact hno ⟨hr, (hiff hr).mpr hj'⟩
  · refine iff_of_true rfl fun hr => iff_of_false (fun hj => hno ⟨hr, hj⟩) fun hj => ?_
    exact hno' ⟨hround ▸ hr, hj⟩

/-- The block without its TC. -/
def strip (b : Block C) : Block C := { b with tc := none }

/-- **Any block that is justified by its TC alone can be made non-votable**: the copy without the TC
has the same digest, and verifies. -/
theorem strip_not_voted (hv : b.verify c = .ok ()) (hq : ¬ ByQc b) (s : Core C T) :
    (strip b).digest = b.digest ∧ (strip b).verify c = .ok () ∧
      (makeVote env s (strip b)).2 = .ok none := by
  have hver : (strip b).verify c = .ok () := by
    obtain ⟨hsig, -⟩ := Block.verify_ok hv
    unfold Block.verify at hv ⊢
    split_ifs at hv with hs
    rw [if_pos (show 0 < c.stake (strip b).author from hs),
      if_pos (show C.verify (strip b).signature (strip b).digest (strip b).author = true from hsig)]
    rcases hqc : Block.verifyQc b.qc c with e | _
    · simp [hqc] at hv
    · simp only [strip, hqc]
      rfl
  refine ⟨rfl, hver, ?_⟩
  rcases makeVote_of_verify env hver s with ⟨-, hj, -⟩ | ⟨-, h⟩
  · rcases hj with hj | ⟨tc, htc, -⟩
    · exact absurd hj hq
    · cases htc
  · exact h

/-! ### A block whose TC is taken off -/

/-- The timeout of the only authority, in round 1. -/
def onlyTimeout : Timeout crypto := Timeout.new QC.genesis 1 (key 0)

/-- The block of round 2 on the first block, after the timeout of round 1. -/
def afterTimeout : Block crypto :=
  Block.new QC.genesis (some ⟨1, [(key 0, onlyTimeout.signature, 0)]⟩) (key 0) 2 []

/-- The block and its copy without the TC, which both verify. -/
theorem same_decision_iff_solo :
    (makeVote solo soloStart.core afterTimeout).2 =
        (makeVote solo soloStart.core (strip afterTimeout)).2 ↔
      (soloStart.core.lastVotedRound < afterTimeout.round →
        (ByQc afterTimeout ∨ ByTc afterTimeout ↔
          ByQc (strip afterTimeout) ∨ ByTc (strip afterTimeout))) :=
  same_decision_iff (c := solo.committee) noCollision
    (show afterTimeout.digest = (strip afterTimeout).digest from rfl) rfl rfl _

/-- **The decision changes** when the TC is taken off. -/
theorem exists_altered : ¬ ∀ (c : Committee crypto) (env : Env crypto) (s : Core crypto (Timer ℚ))
    (b b' : Block crypto), b.digest = b'.digest → b.verify c = .ok () → b'.verify c = .ok () →
      (makeVote env s b).2 = (makeVote env s b').2 := by
  intro h
  have hsame := h solo.committee solo soloStart.core afterTimeout (strip afterTimeout) rfl rfl rfl
  have hvote : (makeVote solo soloStart.core afterTimeout).2 =
    .ok (some (Vote.new afterTimeout (key 0))) := rfl
  have hnone : (makeVote solo soloStart.core (strip afterTimeout)).2 = .ok none := rfl
  rw [hvote, hnone] at hsame
  cases hsame

end Hotstuff.Consensus.Tampering
