import Hotstuff.Consensus.Chain
import Hotstuff.Consensus.Coherence
import Hotstuff.Ideal
import Hotstuff.Lib.TwoChain

/-! # Agreement

The traces of the honest nodes are a history of the two-chain rule (`history`, `sound_of_coherent`):
votes are its ballots, quorums of votes its certificates. A block that `process_block` commits is
certified and has a certified child of the next round (`exists_cert`), so that of two blocks that
honest nodes commit one descends from the other (`agreement`). -/

namespace Hotstuff.Consensus.Agreement

open Hotstuff.Primitives Hotstuff.Consensus.Config Hotstuff.Consensus.Messages
open Hotstuff.Consensus.Pacing Hotstuff.Consensus.Handlers Hotstuff.Consensus.Steps
open Hotstuff.Consensus.Entries Hotstuff.Consensus.Evidence Hotstuff.Consensus.Locking
open Hotstuff.Consensus.Admission Hotstuff.Consensus.Chain Hotstuff.Consensus.Wiring
open Hotstuff.Consensus.System Hotstuff.Consensus.Coherence Hotstuff.Lib.Transition
open Hotstuff.Lib.TwoChain Hotstuff.Ideal

variable {C : Crypto} {T : Type}

/-! ### The history of the traces -/

/-- The digest of the parent, `none` for the first block. -/
def parentId (b : Block C) : Option C.Digest := if b.qc.IsGenesis then none else some b.parent

def ballot (b : Block C) : Ballot (Option C.Digest) :=
  ⟨some b.digest, b.round.toNat, parentId b, b.qc.round.toNat⟩

/-- What an entry of the trace signs. -/
def statement : Action C → Option (Lib.TwoChain.Signed (Option C.Digest))
  | .vote b => some (.vote (ballot b))
  | .timeout t => some (.timeout t.round.toNat t.highQc.round.toNat)
  | _ => none

def history (w : Network C) (cores : C.PublicKey → Core C T) :
    History C.PublicKey (Option C.Digest) where
  honest := w.Honest
  quorum := w.committee.Quorum
  genesis := none
  signed k := (cores k).trace.filterMap statement

section History

variable {w : Network C} {cores : C.PublicKey → Core C T}

theorem mem_vote {l : List (Action C)} {b : Ballot (Option C.Digest)} :
    Lib.TwoChain.Signed.vote b ∈ l.filterMap statement ↔ ∃ x, .vote x ∈ l ∧ b = ballot x := by
  rw [List.mem_filterMap]
  constructor
  · rintro ⟨a, ha, h⟩
    cases a <;> simp only [statement, reduceCtorEq, Option.some.injEq,
      Lib.TwoChain.Signed.vote.injEq] at h
    exact ⟨_, ha, h.symm⟩
  · rintro ⟨x, hx, rfl⟩
    exact ⟨_, hx, rfl⟩

theorem mem_timeout {l : List (Action C)} {t : Timeout C} (h : .timeout t ∈ l) :
    Lib.TwoChain.Signed.timeout t.round.toNat t.highQc.round.toNat ∈ l.filterMap statement :=
  List.mem_filterMap.mpr ⟨_, h, rfl⟩

theorem pairwise_locked {l : List (Action C)} (h : l.Pairwise Lock) :
    (l.filterMap statement).Pairwise Lib.TwoChain.Locked := by
  rw [List.pairwise_filterMap]
  refine h.imp fun {a a'} hl x hx x' hx' => ?_
  cases a <;> simp only [statement, reduceCtorEq, Option.some.injEq] at hx <;>
    cases a' <;> simp only [statement, reduceCtorEq, Option.some.injEq] at hx' <;>
    subst hx hx'
  · exact UInt64.lt_iff_toNat_lt.mp hl
  · exact UInt64.le_iff_toNat_le.mp hl
  · exact UInt64.lt_iff_toNat_lt.mp hl
  · trivial

section Certificates

variable (hnc : NoCollision C)
include hnc

/-- A signed QC is a certificate of the history. -/
theorem votedBy_of_qcSigned {qc : QC C} (h : QcSigned w.committee (Sig w cores) qc) :
    (history w cores).VotedBy (qc.votes.map Prod.fst).toFinset (some qc.hash) qc.round.toNat := by
  refine ⟨h.1, fun k hk hh => ?_⟩
  obtain ⟨b, hb, hd, hr⟩ := voted_of_qcSigned hnc h hk hh
  exact ⟨ballot b, mem_vote.mpr ⟨b, hb, rfl⟩, by rw [← hd]; rfl, by rw [← hr]; rfl⟩

theorem timedOut_of_tcSigned {tc : TC C} (h : TcSigned w.committee (Sig w cores) tc) {r : Round}
    (hle : ∀ x ∈ tc.highQcRounds, x ≤ r) :
    (history w cores).TimedOut (tc.votes.map Prod.fst).toFinset tc.round.toNat r.toNat := by
  refine ⟨h.1, fun k hk hh => ?_⟩
  obtain ⟨t, ht, hr, hq⟩ := timeout_of_tcSigned hnc h hk hh
  exact ⟨_, UInt64.le_iff_toNat_le.mp (hle _ hq), hr ▸ mem_timeout ht⟩

end Certificates

theorem eq_of_add_one {a b : Round} (h : a + 1 = b) (hb : 0 < b) : a.toNat + 1 = b.toNat := by
  rw [← h]
  exact (toNat_add_one (by rw [h]; exact pos_of_lt hb)).symm

section Sound

variable (hnc : NoCollision C) (hf : FewFaults w) (hz : ZeroUncertified w cores)
  (hI : Coherent w cores)
include hnc hz hI

/-- Blocks with the same digest have the same parent. -/
theorem parentId_congr {k k' : C.PublicKey} (hk : w.Honest k) (hk' : w.Honest k') {b b' : Block C}
    (hb : .store b ∈ (cores k).trace) (hb' : .store b' ∈ (cores k').trace)
    (h : b.digest = b'.digest) : parentId b = parentId b' := by
  have hhash := (digest_inj hnc h).2.2.2
  unfold parentId Block.parent
  rw [hhash]
  by_cases hg : b.qc.IsGenesis <;> by_cases hg' : b'.qc.IsGenesis
  · simp [hg, hg']
  · obtain ⟨⟨r, hr⟩, -⟩ := hI.qc_of_vote hk' hb' hg'
    exact absurd (hhash.symm.trans hg.1) (hz k' hk' _ r hr hg')
  · obtain ⟨⟨r, hr⟩, -⟩ := hI.qc_of_vote hk hb hg
    exact absurd (hhash.trans hg'.1) (hz k hk _ r hr hg)
  · simp [hg, hg']

omit hz in
/-- The parent of a stored block is certified, in the round of its QC. -/
theorem cert_parent {k : C.PublicKey} (hk : w.Honest k) {b : Block C}
    (hb : .store b ∈ (cores k).trace) :
    (history w cores).Cert (parentId b) b.qc.round.toNat := by
  unfold parentId
  split_ifs with hg
  · exact .inl ⟨rfl, by rw [hg.2]; rfl⟩
  · exact .inr ⟨_, votedBy_of_qcSigned hnc (hI.qc_of_vote hk hb hg).2⟩

include hf in
/-- **The traces are a sound history.** -/
theorem sound_of_coherent : (history w cores).Sound := by
  have hvote : ∀ {k : C.PublicKey} {b : Ballot (Option C.Digest)}, (history w cores).Voted k b →
      w.Honest k ∧ ∃ x, .vote x ∈ (cores k).trace ∧ .store x ∈ (cores k).trace ∧
        safetyRule2 x = .ok true ∧ b = ballot x := by
    rintro k b ⟨hk, hm⟩
    obtain ⟨x, hx, rfl⟩ := mem_vote.mp hm
    obtain ⟨hst, -, hs⟩ := (hI.entries k hk).entry _ hx
    exact ⟨hk, x, hx, hst, hs, rfl⟩
  refine ⟨fun Q Q' hQ hQ' => exists_honest hf hQ hQ', fun k hk => pairwise_locked (hI.lock k hk),
    ?_, ?_, ?_, ?_, ?_⟩
  · intro k b hb
    obtain ⟨hk, x, hx, -, -, rfl⟩ := hvote hb
    exact ⟨UInt64.lt_iff_toNat_lt.mp (hI.pos k hk x hx), by simp [ballot, history]⟩
  · intro k k' b b' hb hb' hid
    obtain ⟨hk, x, -, hst, -, rfl⟩ := hvote hb
    obtain ⟨hk', x', -, hst', -, rfl⟩ := hvote hb'
    have hd : x.digest = x'.digest := Option.some.inj hid
    exact ⟨congrArg UInt64.toNat (digest_inj hnc hd).2.1,
      parentId_congr hnc hz hI hk hk' hst hst' hd⟩
  · intro k b hb
    obtain ⟨hk, x, -, hst, -, rfl⟩ := hvote hb
    exact cert_parent hnc hI hk hst
  · intro k b hb
    obtain ⟨hk, x, hx, hst, hs, rfl⟩ := hvote hb
    have hpos := hI.pos k hk x hx
    rcases (safetyRule2_iff.mp hs).2 with hone | ⟨tc, htc, hround, hle⟩
    · exact .inl (eq_of_add_one hone hpos)
    · exact .inr ⟨_, _, eq_of_add_one hround hpos,
        timedOut_of_tcSigned hnc ((hI.attested k hk).store x tc hst htc) hle⟩
  · intro Q k b hb hQ
    obtain ⟨hk, x, hx, -, -, rfl⟩ := hvote hb
    by_contra hle
    have hle' : x.round ≤ x.qc.round := by
      rw [UInt64.le_iff_toNat_le]
      exact Nat.le_of_not_lt hle
    by_cases hg : x.qc.IsGenesis
    · have hpos := hI.pos k hk x hx
      rw [hg.2] at hle'
      grind
    · -- a quorum has not voted for the block
      obtain ⟨Q', hQ', hno⟩ := hI.outvoted k hk x hx hg hle'
      obtain ⟨j, hj, hj', hhj⟩ := exists_honest hf hQ.1 hQ'
      obtain ⟨b, hb, hid, -⟩ := hQ.2 j hj hhj
      obtain ⟨y, hy, rfl⟩ := mem_vote.mp hb
      exact (hno j hj' hhj).2 y hy (Option.some.inj hid)

/-! ### Committed blocks -/

/-- `p` stands for the block in the history. -/
def Names (p : Option C.Digest) (b : Block C) : Prop :=
  (p = none ∧ b = Block.genesis) ∨ p = some b.digest

omit hnc hz hI in
theorem names_parentId {p b : Block C} (h : IsParent p b) : Names (parentId b) p := by
  unfold parentId
  rcases h with ⟨hg, rfl⟩ | ⟨hg, hd⟩
  · exact .inl ⟨if_pos hg, rfl⟩
  · exact .inr (by rw [if_neg hg, hd])

omit hnc hz hI in
theorem isParent_of_names {p b : Block C} (h : Names (parentId b) p) : IsParent p b := by
  unfold Names parentId at h
  by_cases hg : b.qc.IsGenesis
  · simp only [hg, if_true, true_and, reduceCtorEq, or_false] at h
    exact .inl ⟨hg, h⟩
  · simp only [hg, if_false, reduceCtorEq, false_and, false_or, Option.some.injEq] at h
    exact .inr ⟨hg, h.symm⟩

/-- A child in the history is a child of a block with that name. -/
theorem parent_of_child {p d : Option C.Digest} (h : (history w cores).Child p d)
    {k : C.PublicKey} (hk : w.Honest k) {b : Block C} (hb : Known (cores k) b) (hd : Names d b) :
    parentId b = p ∧ .store b ∈ (cores k).trace := by
  obtain ⟨j, x, ⟨hj, hm⟩, rfl, rfl⟩ := h
  obtain ⟨y, hy, rfl⟩ := mem_vote.mp hm
  have hst : .store y ∈ (cores j).trace := ((hI.entries j hj).entry _ hy).1
  have hdig : y.digest = b.digest := by
    rcases hd with ⟨h, -⟩ | h
    · cases h
    · exact Option.some.inj h
  rcases hb with rfl | hb
  · -- nobody votes in round 0
    have hzero : y.round = 0 := (digest_inj hnc hdig).2.1
    exact absurd (hI.pos j hj y hy) (by rw [hzero]; exact UInt64.lt_irrefl 0)
  · exact ⟨(parentId_congr hnc hz hI hj hk hst hb hdig).symm, hb⟩

/-- **Ancestors of the history are ancestors of blocks.** -/
theorem ancestor_of_child {p d : Option C.Digest}
    (h : Relation.ReflTransGen (history w cores).Child p d) {b₀ : Block C} (h₀ : Names p b₀)
    {k : C.PublicKey} (hk : w.Honest k) {b : Block C} (hb : Known (cores k) b) (hd : Names d b) :
    b₀.digest = b.digest ∨ Relation.TransGen IsParent b₀ b := by
  induction h generalizing k b with
  | refl =>
    left
    rcases h₀ with ⟨rfl, rfl⟩ | rfl
    · rcases hd with ⟨-, rfl⟩ | hd
      · rfl
      · cases hd
    · rcases hd with ⟨hd, -⟩ | hd
      · cases hd
      · exact Option.some.inj hd
  | @tail q d hpq hqd ih =>
    have hpar := (parent_of_child hnc hz hI hqd hk hb hd).1
    rcases hpq.cases_tail with rfl | ⟨q', -, j, x, ⟨hj, hm⟩, rfl, -⟩
    · exact .inr (.single (isParent_of_names (hpar ▸ h₀)))
    · obtain ⟨y, hy, rfl⟩ := mem_vote.mp hm
      have hst : .store y ∈ (cores j).trace := ((hI.entries j hj).entry _ hy).1
      have hby : IsParent y b := isParent_of_names (hpar ▸ .inr rfl)
      rcases ih hj (.inr hst) (.inr rfl) with heq | hanc
      · refine .inr (.single (isParent_of_names (.inr ?_)))
        rw [hpar, heq]
        rfl
      · exact .inr (hanc.tail hby)

omit hz in
include hf in
/-- The QC of a block is of the round of its parent. -/
theorem qc_round_of_parent {k : C.PublicKey} (hk : w.Honest k) {b p : Block C}
    (hb : .store b ∈ (cores k).trace) (hp : IsParent p b) : b.qc.round = p.round := by
  rcases hp with ⟨hg, rfl⟩ | ⟨hg, hd⟩
  · exact hg.2
  · have hsig := (hI.qc_of_vote hk hb hg).2
    obtain ⟨j, hj, -, hhj⟩ := exists_honest hf hsig.1 hsig.1
    obtain ⟨x, -, hdx, hrx⟩ := voted_of_qcSigned hnc hsig hj hhj
    rw [← hrx, (digest_inj hnc (hdx.trans hd.symm)).2.1]

include hf in
/-- **A committed block is certified, with a certified child of the next round.** -/
theorem exists_cert {k : C.PublicKey} (hk : w.Honest k) (hl : Linked (cores k)) {last : Round}
    {b₀ : Block C} (h : .commit last b₀ ∈ (cores k).trace) :
    Known (cores k) b₀ ∧ ∃ p c Q, Names p b₀ ∧ (history w cores).Cert p b₀.round.toNat ∧
      (history w cores).VotedBy Q c (b₀.round.toNat + 1) ∧ (history w cores).Child p c := by
  obtain ⟨b₁, b, hcl, hnext⟩ := (hI.entries k hk).entry _ h
  obtain ⟨hp1, hp0, hk1, hk0⟩ := hl b₀ b₁ b hcl
  have hst : .store b ∈ (cores k).trace := (hI.entries k hk).entry _ hcl
  have hne : b₁ ≠ Block.genesis := by
    rintro rfl
    have hzero : b₀.round = 0 := by
      rcases hp0 with ⟨-, rfl⟩ | ⟨hg, -⟩
      · rfl
      · exact absurd isGenesis_genesis hg
    rw [hzero] at hnext
    exact absurd hnext (show ¬ (0 : Round) + 1 = 0 by decide)
  have hst1 := hk1.known.resolve_left hne
  obtain ⟨hg, hd1⟩ : ¬ b.qc.IsGenesis ∧ b₁.digest = b.qc.hash := by
    rcases hp1 with ⟨-, h⟩ | h
    · exact absurd h hne
    · exact h
  have hsig := (hI.qc_of_vote hk hst hg).2
  obtain ⟨j, hj, -, hhj⟩ := exists_honest hf hsig.1 hsig.1
  obtain ⟨x, hx, hdx, hrx⟩ := voted_of_qcSigned hnc hsig hj hhj
  have hxst : .store x ∈ (cores j).trace := ((hI.entries j hhj).entry _ hx).1
  have hpos : 0 < b.qc.round := hrx ▸ hI.pos j hhj x hx
  have hnext' : b₀.round.toNat + 1 = b.qc.round.toNat := by
    have hround := qc_round_of_parent hnc hf hI hk hst hp1
    exact eq_of_add_one (hnext.trans hround.symm) hpos
  have hvoted := votedBy_of_qcSigned hnc hsig
  rw [← hnext'] at hvoted
  refine ⟨hk0.known, parentId b₁, some b.qc.hash, _, names_parentId hp0, ?_, hvoted, ?_⟩
  · rw [← qc_round_of_parent hnc hf hI hk hst1 hp0]
    exact cert_parent hnc hI hk hst1
  · refine ⟨j, ballot x, ⟨hhj, mem_vote.mpr ⟨x, hx, rfl⟩⟩, by rw [← hdx]; rfl, ?_⟩
    exact parentId_congr hnc hz hI hhj hk hxst hst1 (hdx.trans hd1.symm)

/-- The block is certified and every certified block of its round or a later one descends from
it. -/
def Anchor (w : Network C) (cores : C.PublicKey → Core C T) (z : Block C) : Prop :=
  ∃ p, Names p z ∧ (history w cores).Cert p z.round.toNat ∧ ∀ d r, (history w cores).Cert d r →
    z.round.toNat ≤ r → Relation.ReflTransGen (history w cores).Child p d

include hf in
theorem anchor_genesis : Anchor w cores Block.genesis :=
  ⟨none, .inl ⟨rfl, rfl⟩, .inl ⟨rfl, rfl⟩,
    fun _ _ hd _ => (sound_of_coherent hnc hf hz hI).genesis_ancestor hd⟩

include hf in
/-- **A committed block is an ancestor of what comes after it.** -/
theorem anchor_of_commit {k : C.PublicKey} (hk : w.Honest k) (hl : Linked (cores k)) {last : Round}
    {b : Block C} (h : .commit last b ∈ (cores k).trace) : Anchor w cores b := by
  obtain ⟨-, p, c, Q, hp, hcp, hQ, hpc⟩ := exists_cert hnc hf hz hI hk hl h
  exact ⟨p, hp, hcp, fun d r hd hr =>
    (sound_of_coherent hnc hf hz hI).ancestor_of_cert hcp hQ hpc hd hr⟩

end Sound

end History

/-! ### Runs -/

variable [RoundTimer T] {w : Network C} {S : Nodes C T} {es : List (C.PublicKey × Event C)}

/-- **Agreement.** Of two blocks that honest nodes commit, the one of the lower round is the other
one, or an ancestor of it. Blocks are compared by their digests, as in the tests of the
repository. -/
theorem agreement (hnc : NoCollision C) (hbs : BatchSound C) (hf : FewFaults w)
    {io : C.PublicKey → Io C} {timer : C.PublicKey → T} (r : SystemRun w (start w io timer) es S)
    (hcert : ∀ k, w.Honest k → NoBatchCertified (S k).core ∧ NoZeroCertified (S k).core)
    {k k' : C.PublicKey} (hk : w.Honest k) (hk' : w.Honest k') {last last' : Round} {b b' : Block C}
    (h : .commit last b ∈ (S k).core.trace) (h' : .commit last' b' ∈ (S k').core.trace)
    (hr : b.round ≤ b'.round) : b.digest = b'.digest ∨ Relation.TransGen IsParent b b' := by
  have hz : ZeroUncertified w (coresOf S) := fun k hk => (hcert k hk).2
  have hI := run_coherent hnc hbs hf r hz
  have hl := fun k hk => (run_linked (node_run r k) (hcert k hk).1).2
  obtain ⟨p, hp, -, hanc⟩ := anchor_of_commit hnc hf hz hI hk (hl k hk) h
  obtain ⟨hknown, p', -, -, hp', hcp', -, -⟩ := exists_cert hnc hf hz hI hk' (hl k' hk') h'
  exact ancestor_of_child hnc hz hI (hanc p' _ hcp' (UInt64.le_iff_toNat_le.mp hr)) hp hk'
    hknown hp'

/-- One authority of four is Byzantine. -/
theorem fewFaults_four : FewFaults fourNetwork :=
  ⟨by decide, 1, by decide, by decide⟩

/-- Nothing is certified in the run of four that should not be. -/
theorem certified_four {S : Nodes crypto (Timer ℚ)} (h : ∀ k ∈ [key 0, key 1, key 2],
      NoBatchCertified (S k).core ∧ NoZeroCertified (S k).core)
    (k : crypto.PublicKey) (hk : fourNetwork.Honest k) :
    NoBatchCertified (S k).core ∧ NoZeroCertified (S k).core := by
  rcases honest_four hk with rfl | rfl | rfl <;> exact h _ (by simp)

/-- The node that gets the other block of the Byzantine leader commits the block of round 1, another
node that of round 2. -/
theorem agreement_four : ∃ (S : Nodes crypto (Timer ℚ)) (b b' : Block crypto),
    .commit 0 b ∈ (S (key 2)).core.trace ∧ .commit 1 b' ∈ (S (key 0)).core.trace ∧
      b.round = 1 ∧ b'.round = 2 ∧ (b.digest = b'.digest ∨ Relation.TransGen IsParent b b') := by
  have hrun := run_of_fourRun fourRounds rfl
  have h := List.mem_of_getElem?
    (show ((fourRun fourRounds).getD fourStart (key 2)).core.trace[20]? =
      some (.commit 0 Four.first) from rfl)
  have h' := List.mem_of_getElem?
    (show ((fourRun fourRounds).getD fourStart (key 0)).core.trace[30]? =
      some (.commit 1 Four.second) from rfl)
  exact ⟨_, _, _, h, h', rfl, rfl, agreement noCollision batchSound fewFaults_four hrun
    (certified_four (by decide)) (by decide) (by decide) h h' (by decide)⟩

end Hotstuff.Consensus.Agreement
