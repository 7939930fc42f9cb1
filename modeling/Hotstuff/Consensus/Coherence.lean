import Hotstuff.Consensus.Evidence
import Hotstuff.Consensus.Locking
import Hotstuff.Consensus.System

/-! # What the traces of all nodes say together

The certificates that an honest node has are backed by what the traces of the honest nodes say that
they signed. `Coherent` collects this with the lock of each node. It is kept by each elementary step
of each node, the other nodes being as they are.

No bound on the rounds is assumed. After a certificate of the last round a node is in round 0, and
may then vote for a block whose QC is of a later round than the block; but the quorum that signed
the QC has voted in that later round and will not vote for the block (`Outvoted`). -/

namespace Hotstuff.Consensus.Coherence

open Hotstuff.Primitives Hotstuff.Consensus.Config Hotstuff.Consensus.Messages
open Hotstuff.Consensus.Aggregation Hotstuff.Consensus.Pacing Hotstuff.Consensus.Handlers
open Hotstuff.Consensus.Steps Hotstuff.Consensus.Entries Hotstuff.Consensus.Tasks
open Hotstuff.Consensus.Admission Hotstuff.Consensus.Evidence Hotstuff.Consensus.Locking
open Hotstuff.Consensus.Queues
open Hotstuff.Consensus.Wiring Hotstuff.Consensus.System Hotstuff.Lib.Transition

variable {C : Crypto} {T : Type}

/-- Twice the total stake fits, and the stake of the Byzantine authorities is less than a third of
it. -/
def FewFaults (w : Network C) : Prop :=
  w.committee.NoOverflow ∧
    ∃ f, w.committee.weight w.byzantine ≤ f ∧ 3 * f + 1 ≤ w.committee.total

/-- Two quorums have an honest authority in common. -/
theorem exists_honest {w : Network C} (hf : FewFaults w) {Q Q' : Finset C.PublicKey}
    (hQ : w.committee.Quorum Q) (hQ' : w.committee.Quorum Q') : ∃ k ∈ Q, k ∈ Q' ∧ w.Honest k := by
  obtain ⟨hno, f, hle, h3⟩ := hf
  have hbad : w.committee.weight (w.committee.members.filter (· ∈ w.byzantine)) ≤ f := by
    refine le_trans (Finset.sum_le_sum_of_subset fun k hk => ?_) hle
    exact (Finset.mem_filter.mp hk).2
  obtain ⟨k, hk, hk', hb⟩ := exists_common (· ∈ w.byzantine) hno hbad h3 hQ hQ'
  exact ⟨k, hk, hk', hQ.1 hk, hb⟩

/-! ### What an honest authority signed -/

/-- If the authority is honest, its core signed the digest. -/
def Sig (w : Network C) (cores : C.PublicKey → Core C T) (k : C.PublicKey) (d : C.Digest) : Prop :=
  w.Honest k → d ∈ (cores k).trace.filterMap coreSigns

section Signed

variable (hnc : NoCollision C)
include hnc

theorem vote_of_signed {l : List (Action C)} {d : C.Digest} {r : Round}
    (h : voteDigest d r ∈ l.filterMap coreSigns) :
    ∃ b, .vote b ∈ l ∧ b.digest = d ∧ b.round = r := by
  obtain ⟨a, ha, hd⟩ := List.mem_filterMap.mp h
  cases a with
  | vote b =>
    have := hnc (Option.some.inj hd)
    simp only [Preimage.vote.injEq] at this
    exact ⟨b, ha, this⟩
  | timeout t => exact absurd (hnc (Option.some.inj hd)) (by simp)
  | _ => simp [coreSigns] at hd

theorem timeout_of_signed {l : List (Action C)} {r h : Round}
    (hm : timeoutDigest r h ∈ l.filterMap coreSigns) :
    ∃ t, .timeout t ∈ l ∧ t.round = r ∧ t.highQc.round = h := by
  obtain ⟨a, ha, hd⟩ := List.mem_filterMap.mp hm
  cases a with
  | vote b => exact absurd (hnc (Option.some.inj hd)) (by simp)
  | timeout t =>
    have := hnc (Option.some.inj hd)
    simp only [Preimage.timeout.injEq] at this
    exact ⟨t, ha, this⟩
  | _ => simp [coreSigns] at hd

/-- The proposer signs neither votes nor timeouts. -/
theorem core_of_signed {n : Node C T} {d : C.Digest} (h : d ∈ signed n)
    (hd : (∃ h r, d = voteDigest h r) ∨ ∃ r h, d = timeoutDigest r h) :
    d ∈ n.core.trace.filterMap coreSigns := by
  refine (List.mem_append.mp h).resolve_right fun hp => ?_
  obtain ⟨a, -, ha⟩ := List.mem_filterMap.mp hp
  cases a with
  | created b =>
    rcases hd with ⟨h, r, rfl⟩ | ⟨r, h, rfl⟩ <;> exact absurd (hnc (Option.some.inj ha)) (by simp)
  | _ => simp [proposerSigns] at ha

end Signed

/-! ### Messages -/

section Messages

variable (hnc : NoCollision C) (hbs : BatchSound C) {w : Network C} {S : Nodes C T}

/-- The cores of the nodes. -/
def coresOf (S : Nodes C T) : C.PublicKey → Core C T := fun k => (S k).core

include hnc in
theorem qc_genuine {qc : QC C} {l : List (Signed C)} (hl : qcSignatures qc ⊆ l)
    (h : ∀ x ∈ l, w.Honest x.1 → C.verify x.2.2 x.2.1 x.1 = true → x.2.1 ∈ signed (S x.1)) :
    ∀ v ∈ qc.votes, C.verify v.2 qc.digest v.1 = true → Sig w (coresOf S) v.1 qc.digest :=
  fun _ hv hver hh => core_of_signed hnc
    (h _ (hl (List.mem_map_of_mem (f := fun v => (v.1, qc.digest, v.2)) hv)) hh hver)
    (.inl ⟨_, _, rfl⟩)

include hnc hbs in
/-- A QC that passes its check, whose signatures are not forged. -/
theorem qcSigned_of_verify (hno : w.committee.NoOverflow) {qc : QC C} {l : List (Signed C)}
    (hver : qc.verify w.committee = .ok ()) (hl : qcSignatures qc ⊆ l)
    (h : ∀ x ∈ l, w.Honest x.1 → C.verify x.2.2 x.2.1 x.1 = true → x.2.1 ∈ signed (S x.1)) :
    QcSigned w.committee (Sig w (coresOf S)) qc := by
  obtain ⟨hq, hb⟩ := QC.verify_ok hver
  exact ⟨quorum_of_check hno hq, fun v hv => qc_genuine hnc hl h v hv (hbs _ _ hb v hv)⟩

include hnc hbs in
theorem qcKnown_of_verify (hno : w.committee.NoOverflow) {qc : QC C} {l : List (Signed C)}
    (hver : qc.IsGenesis ∨ qc.verify w.committee = .ok ()) (hl : qcSignatures qc ⊆ l)
    (h : ∀ x ∈ l, w.Honest x.1 → C.verify x.2.2 x.2.1 x.1 = true → x.2.1 ∈ signed (S x.1)) :
    QcKnown w.committee (Sig w (coresOf S)) qc :=
  ⟨qc_genuine hnc hl h, hver.imp_right fun hver => qcSigned_of_verify hnc hbs hno hver hl h⟩

include hnc in
theorem tcSigned_of_verify (hno : w.committee.NoOverflow) {tc : TC C} {l : List (Signed C)}
    (hver : tc.verify w.committee = .ok ()) (hl : tcSignatures tc ⊆ l)
    (h : ∀ x ∈ l, w.Honest x.1 → C.verify x.2.2 x.2.1 x.1 = true → x.2.1 ∈ signed (S x.1)) :
    TcSigned w.committee (Sig w (coresOf S)) tc := by
  obtain ⟨hq, hv⟩ := TC.verify_ok hver
  refine ⟨quorum_of_check hno hq, fun v hm hh => core_of_signed hnc ?_ (.inr ⟨_, _, rfl⟩)⟩
  exact h _ (hl (List.mem_map_of_mem
    (f := fun v => (v.1, timeoutDigest tc.round v.2.2, v.2.1)) hm)) hh (hv v hm)

include hnc hbs in
/-- **What a deliverable event brings is evidence.** -/
theorem delivers_of_deliverable (hno : w.committee.NoOverflow) {k : C.PublicKey} {e : Event C}
    {n : Node C T} (hd : Deliverable w S e) (hn : Queues.Ok (w.env k) (S k))
    (hat : Attested (w.env k) (Sig w (coresOf S)) (S k).core) :
    Delivers (w.env k) (Sig w (coresOf S)) (guard (w.env k) (S k) n e) := by
  refine ⟨?_, ?_, ?_, ?_, ?_⟩
  · rintro b ⟨io, rfl⟩ hver
    obtain ⟨-, hq, htc⟩ := Block.verify_ok hver
    refine ⟨qcKnown_of_verify hnc hbs hno hq ?_ hd, fun tc h => ?_⟩
    · exact fun x hx => List.mem_cons_of_mem _ (List.mem_append_left _ hx)
    · refine tcSigned_of_verify hnc hno (htc tc h) (fun x hx => ?_) hd
      exact List.mem_cons_of_mem _ (List.mem_append_right _ (by rw [h]; exact hx))
  · rintro v ⟨io, rfl⟩ hver hh
    exact core_of_signed hnc (hd _ List.mem_cons_self hh (Vote.verify_ok hver).2)
      (.inl ⟨_, _, rfl⟩)
  · rintro t ⟨io, rfl⟩ hver
    obtain ⟨-, hsig, hq⟩ := Timeout.verify_ok hver
    refine ⟨fun hh => core_of_signed hnc (hd _ List.mem_cons_self hh hsig) (.inr ⟨_, _, rfl⟩), ?_⟩
    exact qcKnown_of_verify hnc hbs hno hq (fun x hx => List.mem_cons_of_mem _ hx) hd
  · rintro tc ⟨⟨io, rfl⟩, -⟩ hver
    exact tcSigned_of_verify hnc hno hver (fun x hx => hx) hd
  · rintro b tc hb htc
    obtain ⟨round, qc, tc', payload, hm, rfl, -⟩ := hn.created b hb
    rw [show tc' = some tc from htc] at hm
    exact hat.make _ _ _ hm

end Messages

/-! ### The invariant -/

/-- A quorum has voted in the round of the block, or later, and not for the block. -/
def Outvoted (w : Network C) (cores : C.PublicKey → Core C T) (b : Block C) : Prop :=
  ∃ Q, w.committee.Quorum Q ∧ ∀ k ∈ Q, w.Honest k → b.round ≤ (cores k).lastVotedRound ∧
    ∀ b', .vote b' ∈ (cores k).trace → b'.digest ≠ b.digest

structure Coherent (w : Network C) (cores : C.PublicKey → Core C T) : Prop where
  entries : ∀ k, w.Honest k → Entries.Ok (w.env k) (cores k)
  lock : ∀ k, w.Honest k → (cores k).trace.Pairwise Lock
  attested : ∀ k, w.Honest k → Attested (w.env k) (Sig w cores) (cores k)
  pos : ∀ k, w.Honest k → ∀ b, .vote b ∈ (cores k).trace → 0 < b.round
  outvoted : ∀ k, w.Honest k → ∀ b, .vote b ∈ (cores k).trace → ¬ b.qc.IsGenesis →
    b.round ≤ b.qc.round → Outvoted w cores b

/-- No honest node has processed a certificate of the all-zero digest. -/
def ZeroUncertified (w : Network C) (cores : C.PublicKey → Core C T) : Prop :=
  ∀ k, w.Honest k → NoZeroCertified (cores k)

section Digests

variable (hnc : NoCollision C)
include hnc

theorem digest_inj {b b' : Block C} (h : b.digest = b'.digest) :
    b.author = b'.author ∧ b.round = b'.round ∧ b.payload = b'.payload ∧
      b.qc.hash = b'.qc.hash := by
  have := hnc h
  simpa only [Preimage.block.injEq] using this

variable {w : Network C} {cores : C.PublicKey → Core C T}

/-- The honest signers of a QC voted for its block. -/
theorem voted_of_qcSigned {qc : QC C} (h : QcSigned w.committee (Sig w cores) qc) {k : C.PublicKey}
    (hk : k ∈ (qc.votes.map Prod.fst).toFinset) (hh : w.Honest k) :
    ∃ b, .vote b ∈ (cores k).trace ∧ b.digest = qc.hash ∧ b.round = qc.round := by
  obtain ⟨v, hv, rfl⟩ := List.mem_map.mp (List.mem_toFinset.mp hk)
  exact vote_of_signed hnc (h.2 v hv hh)

/-- The honest signers of a TC signed a timeout that reports a round of the TC. -/
theorem timeout_of_tcSigned {tc : TC C} (h : TcSigned w.committee (Sig w cores) tc)
    {k : C.PublicKey} (hk : k ∈ (tc.votes.map Prod.fst).toFinset) (hh : w.Honest k) :
    ∃ t, .timeout t ∈ (cores k).trace ∧ t.round = tc.round ∧ t.highQc.round ∈ tc.highQcRounds := by
  obtain ⟨v, hv, rfl⟩ := List.mem_map.mp (List.mem_toFinset.mp hk)
  obtain ⟨t, ht, hr, hq⟩ := timeout_of_signed hnc (h.2 v hv hh)
  exact ⟨t, ht, hr, by rw [hq]; exact List.mem_map_of_mem (f := fun v => v.2.2) hv⟩

/-- A block is certified in one round only, its own. -/
theorem qc_round_unique (hf : FewFaults w) {qc qc' : QC C}
    (h : QcSigned w.committee (Sig w cores) qc) (h' : QcSigned w.committee (Sig w cores) qc')
    (hh : qc.hash = qc'.hash) : qc.round = qc'.round := by
  obtain ⟨k, hk, -, hhk⟩ := exists_honest hf h.1 h.1
  obtain ⟨k', hk', -, hhk'⟩ := exists_honest hf h'.1 h'.1
  obtain ⟨b, -, hb, hr⟩ := voted_of_qcSigned hnc h hk hhk
  obtain ⟨b', -, hb', hr'⟩ := voted_of_qcSigned hnc h' hk' hhk'
  rw [← hr, ← hr', (digest_inj hnc (hb.trans (hh.trans hb'.symm))).2.1]

end Digests

namespace Coherent

variable {w : Network C} {cores : C.PublicKey → Core C T} (hI : Coherent w cores)
include hI

/-- The QC of a block that was voted for is the first one, or signed. -/
theorem qc_of_vote {k : C.PublicKey} (hk : w.Honest k) {b : Block C}
    (hb : .store b ∈ (cores k).trace) (hg : ¬ b.qc.IsGenesis) :
    (∃ r, .processQc b.qc r ∈ (cores k).trace) ∧ QcSigned w.committee (Sig w cores) b.qc := by
  have hq : Accepted (cores k) b.qc := (hI.entries k hk).entry _ hb
  obtain ⟨r, hr⟩ := processed_of_accepted hq hg
  exact ⟨⟨r, hr⟩, ((hI.attested k hk).qc _ r hr).quorum.resolve_left hg⟩

/-- **Before an honest node votes for a block that is not above its QC**, a quorum is past it. -/
theorem outvoted_of_store (hnc : NoCollision C) (hf : FewFaults w) (hz : ZeroUncertified w cores)
    {k : C.PublicKey} (hk : w.Honest k) {b : Block C} (hb : .store b ∈ (cores k).trace)
    (hg : ¬ b.qc.IsGenesis) (hle : b.round ≤ b.qc.round) : Outvoted w cores b := by
  obtain ⟨⟨r, hr⟩, hsig⟩ := hI.qc_of_vote hk hb hg
  have hvoted : ∀ k' ∈ (b.qc.votes.map Prod.fst).toFinset, w.Honest k' →
      b.round ≤ (cores k').lastVotedRound := by
    intro k' hk' hh
    obtain ⟨b', hb', -, hround⟩ := voted_of_qcSigned hnc hsig hk' hh
    have hlast : b'.round ≤ (cores k').lastVotedRound := ((hI.entries k' hh).entry _ hb').2.1
    exact UInt64.le_trans hle (hround ▸ hlast)
  by_cases hex : ∃ k' ∈ (b.qc.votes.map Prod.fst).toFinset, w.Honest k' ∧
      ∃ b', .vote b' ∈ (cores k').trace ∧ b'.digest = b.digest
  · -- an earlier vote for the same block: it has the same QC, up to the signatures
    obtain ⟨k', -, hh, b', hb', hd⟩ := hex
    obtain ⟨-, hround, -, hhash⟩ := digest_inj hnc hd
    have hg' : ¬ b'.qc.IsGenesis := fun h => hz k hk b.qc r hr hg (hhash.symm.trans h.1)
    have hsig' := (hI.qc_of_vote hh ((hI.entries k' hh).entry _ hb').1 hg').2
    have hle' : b'.round ≤ b'.qc.round := by
      rw [hround, qc_round_unique hnc hf hsig' hsig hhash]
      exact hle
    have hout := hI.outvoted k' hh b' hb' hg' hle'
    unfold Outvoted at hout ⊢
    rwa [hround, hd] at hout
  · exact ⟨_, hsig.1, fun k' hk' hh => ⟨hvoted k' hk' hh, fun b' hb' hd =>
      hex ⟨k', hk', hh, b', hb', hd⟩⟩⟩

end Coherent

/-! ### Steps -/

section Steps

variable [RoundTimer T] {w : Network C} {cores : C.PublicKey → Core C T} {k : C.PublicKey}
  {G : Guard C} {s' : Core C T}

omit [RoundTimer T] in
theorem grows_update (cores : C.PublicKey → Core C T) {k : C.PublicKey} {s' : Core C T}
    (h : Grows (cores k) s') (j : C.PublicKey) :
    Grows (cores j) (Function.update cores k s' j) := by
  by_cases hj : j = k
  · subst hj
    simpa using h
  · rw [Function.update_of_ne hj]
    exact .refl _

omit [RoundTimer T] in
theorem sig_mono {cores' : C.PublicKey → Core C T} (h : ∀ j, Grows (cores j) (cores' j))
    (j : C.PublicKey) (d : C.Digest) (hs : Sig w cores j d) : Sig w cores' j d := by
  intro hh
  obtain ⟨a, ha, hd⟩ := List.mem_filterMap.mp (hs hh)
  exact List.mem_filterMap.mpr ⟨a, (h j).trace ha, hd⟩

omit [RoundTimer T] in
theorem forall_update {P : C.PublicKey → Core C T → Prop} (hnew : P k s')
    (hold : ∀ j, w.Honest j → P j (cores j)) (j : C.PublicKey) (hj : w.Honest j) :
    P j (Function.update cores k s' j) := by
  by_cases hjk : j = k
  · subst hjk
    simpa using hnew
  · rw [Function.update_of_ne hjk]
    exact hold j hj

omit [RoundTimer T] in
theorem outvoted_update (hnc : NoCollision C) (hg : Grows (cores k) s')
    (hvote : ∀ b, .vote b ∈ s'.trace → .vote b ∈ (cores k).trace ∨
      (cores k).lastVotedRound < b.round) {b : Block C} (hb : Outvoted w cores b) :
    Outvoted w (Function.update cores k s') b := by
  obtain ⟨Q, hQ, hall⟩ := hb
  refine ⟨Q, hQ, fun j hj hh => ?_⟩
  obtain ⟨hlast, hno⟩ := hall j hj hh
  refine ⟨UInt64.le_trans hlast (grows_update cores hg j).lastVotedRound, fun b' hb' => ?_⟩
  by_cases hjk : j = k
  swap
  · rw [Function.update_of_ne hjk] at hb'
    exact hno b' hb'
  subst hjk
  rw [Function.update_self] at hb'
  rcases hvote b' hb' with hold | hnew
  · exact hno b' hold
  · -- a new vote is for a later round
    intro hd
    rw [(digest_inj hnc hd).2.1] at hnew
    grind

omit [RoundTimer T] in
/-- The invariant of all nodes, when one of them has moved on. -/
theorem coherent_update (hnc : NoCollision C) (hf : FewFaults w) (hk : w.Honest k)
    (hI : Coherent w cores) (hz : ZeroUncertified w cores) (hg : Grows (cores k) s')
    (hok : Entries.Ok (w.env k) s') (hlock : s'.trace.Pairwise Lock)
    (hat : Attested (w.env k) (Sig w cores) s')
    (hvote : ∀ b, .vote b ∈ s'.trace → .vote b ∈ (cores k).trace ∨
      (.store b ∈ (cores k).trace ∧ (cores k).lastVotedRound < b.round)) :
    Coherent w (Function.update cores k s') := by
  have hgrows := grows_update cores hg
  have hout : ∀ b, Outvoted w cores b → Outvoted w (Function.update cores k s') b := fun b =>
    outvoted_update hnc hg fun b hb => (hvote b hb).imp_right And.right
  refine ⟨forall_update (P := fun j s => Entries.Ok (w.env j) s) hok hI.entries,
    forall_update (P := fun _ s => s.trace.Pairwise Lock) hlock hI.lock, ?_, ?_, ?_⟩
  · exact forall_update (P := fun j s => Attested (w.env j) (Sig w (Function.update cores k s')) s)
      (hat.mono (sig_mono hgrows)) fun j hj => (hI.attested j hj).mono (sig_mono hgrows)
  · refine forall_update (P := fun _ s => ∀ b, .vote b ∈ s.trace → 0 < b.round) (fun b hb => ?_)
      hI.pos
    rcases hvote b hb with hb | ⟨-, hlt⟩
    · exact hI.pos k hk b hb
    · exact UInt64.lt_of_le_of_lt UInt64.zero_le hlt
  · refine forall_update (P := fun _ s => ∀ b, .vote b ∈ s.trace → ¬ b.qc.IsGenesis →
      b.round ≤ b.qc.round → Outvoted w (Function.update cores k s') b)
      (fun b hb hgen hle => hout b ?_) fun j hj b hb hgen hle =>
        hout b (hI.outvoted j hj b hb hgen hle)
    rcases hvote b hb with hb | ⟨hst, -⟩
    · exact hI.outvoted k hk b hb hgen hle
    · exact hI.outvoted_of_store hnc hf hz hk hst hgen hle

/-- **An elementary step of one node keeps the invariant of all.** -/
theorem coherent_act (hnc : NoCollision C) (hf : FewFaults w) (hk : w.Honest k)
    (h : Act (w.env k) G (cores k) s') (hG : Delivers (w.env k) (Sig w cores) G)
    (hz : ZeroUncertified w cores) (hI : Coherent w cores) :
    Coherent w (Function.update cores k s') := by
  have hok := hI.entries k hk
  have hself : Signs (w.env k) (Sig w cores) (cores k) :=
    ⟨fun b hb _ => List.mem_filterMap.mpr ⟨_, hb, rfl⟩,
      fun t ht _ => List.mem_filterMap.mpr ⟨_, ht, rfl⟩⟩
  refine coherent_update hnc hf hk hI hz (Act.grows h) (Act.ok h hok)
    (Act.pairwise_lock h hok (hI.lock k hk)) (Act.attested hok hG hself (hI.attested k hk) h)
    fun b hb => ?_
  exact (Act.vote_cases h hb).imp_right fun h => ⟨h.1, h.2.2⟩

/-- The elementary steps of one event. -/
theorem coherent_acts (hnc : NoCollision C) (hf : FewFaults w) (hk : w.Honest k)
    (h : Acts (w.env k) G (cores k) s') (hG : Delivers (w.env k) (Sig w cores) G)
    (hz : ZeroUncertified w (Function.update cores k s')) (hI : Coherent w cores) :
    Coherent w (Function.update cores k s') := by
  induction h with
  | refl => rwa [Function.update_eq_self]
  | @tail s₁ s₂ h₁ h ih =>
    have hz₁ : ZeroUncertified w (Function.update cores k s₁) := by
      have hg := grows_update (Function.update cores k s₁) (k := k)
        (by rw [Function.update_self]; exact Act.grows h)
      intro j hj qc r hm
      rw [Function.update_idem] at hg
      exact hz j hj qc r ((hg j).trace hm)
    have hG₁ := hG.mono (sig_mono (grows_update cores (Acts.grows h₁)))
    rw [← Function.update_idem (f := cores) (a := k) s₁ s₂]
    refine coherent_act hnc hf hk ?_ hG₁ hz₁ (ih hz₁)
    rwa [Function.update_self]

omit [RoundTimer T] in
/-- A step of another task at most adds a batch to the store. -/
theorem coherent_task (hnc : NoCollision C) (hf : FewFaults w) (hk : w.Honest k)
    (hI : Coherent w cores) (hz : ZeroUncertified w cores) (hg : Grows (cores k) s')
    (hok : Entries.Ok (w.env k) s') (htr : s'.trace = (cores k).trace)
    (hagg : s'.aggregator = (cores k).aggregator) : Coherent w (Function.update cores k s') := by
  have hat := hI.attested k hk
  refine coherent_update hnc hf hk hI hz hg hok (by rw [htr]; exact hI.lock k hk)
    ⟨by rw [hagg]; exact hat.aggregator, ?_, ?_, ?_, ?_, ?_⟩ fun b hb => .inl (htr ▸ hb)
  all_goals rw [htr]
  exacts [hat.qc, hat.accept, hat.store, hat.tc, hat.make]

/-! ### Runs -/

variable {S S' S₀ : Nodes C T} {es : List (C.PublicKey × Event C)}

omit [RoundTimer T] in
theorem coresOf_update (n : Node C T) :
    coresOf (Function.update S k n) = Function.update (coresOf S) k n.core := by
  funext j
  by_cases hj : j = k
  · subst hj
    simp [coresOf]
  · simp [coresOf, Function.update_of_ne hj]

theorem coherent_step (hnc : NoCollision C) (hbs : BatchSound C) (hf : FewFaults w)
    (hn : ∀ k, Queues.Ok (w.env k) (S k)) {x : C.PublicKey × Event C} (h : step w S x = some S')
    (hz : ZeroUncertified w (coresOf S')) (hI : Coherent w (coresOf S)) :
    Coherent w (coresOf S') := by
  obtain ⟨hk, hd, n, hstep, rfl⟩ := step_cases h
  rw [coresOf_update] at hz ⊢
  rcases hc : x.2.isCore with _ | _
  · have hok := (step_ok (hn x.1) hstep).core
    have hg := step_grows (hn x.1) hstep
    have hz₀ : ZeroUncertified w (coresOf S) := fun j hj qc r hm =>
      hz j hj qc r ((grows_update (coresOf S) hg j).trace hm)
    rcases task_step_cases (hn x.1) hc hstep with hframe | ⟨y, -, rfl⟩
    · exact coherent_task hnc hf hk hI hz₀ hg hok (by rw [hframe.core]; rfl)
        (by rw [hframe.core]; rfl)
    · exact coherent_task hnc hf hk hI hz₀ hg hok rfl rfl
  · exact coherent_acts hnc hf hk (step_acts (hn x.1) hc hstep)
      (delivers_of_deliverable hnc hbs hf.1 hd (hn x.1) (hI.attested x.1 hk)) hz hI

theorem coherent_start (io : C.PublicKey → Io C) (timer : C.PublicKey → T) :
    Coherent w (coresOf (start w io timer)) := by
  have htr : ∀ k, (coresOf (start w io timer) k).trace = _ := fun k => boot_trace _ (io k) (timer k)
  have hmem : ∀ k, ∀ a ∈ (coresOf (start w io timer) k).trace, a = .make 1 QC.genesis none := by
    intro k a ha
    rw [htr] at ha
    split_ifs at ha
    · exact List.mem_singleton.mp ha
    · simp at ha
  refine ⟨fun k _ => (boot_ok (io k) (timer k)).core, fun k _ => (locked_boot _ _).pairwise,
    fun k _ => ⟨?_, ?_, ?_, ?_, ?_, ?_⟩, ?_, ?_⟩
  · rw [show (coresOf (start w io timer) k).aggregator = _ from (boot_fields _ _ _).2.2.2.2.2]
    exact ok_new
  · exact fun qc r hm => by cases hmem k _ hm
  · exact fun b tc hm => by cases hmem k _ hm
  · exact fun b tc hm => by cases hmem k _ hm
  · exact fun tc hm => by cases hmem k _ hm
  · exact fun r qc tc hm => by cases hmem k _ hm
  · exact fun k _ b hm => by cases hmem k _ hm
  · exact fun k _ b hm => by cases hmem k _ hm

/-- A node's core only grows. -/
theorem system_grows (hn : ∀ k, Queues.Ok (w.env k) (S k)) {x : C.PublicKey × Event C}
    (h : step w S x = some S') (k : C.PublicKey) : Grows (S k).core (S' k).core := by
  obtain ⟨-, -, n, hstep, rfl⟩ := step_cases h
  have hg := grows_update (coresOf S) (k := x.1) (step_grows (hn x.1) hstep) k
  rw [← coresOf_update] at hg
  exact hg

theorem system_ok (hn : ∀ k, Queues.Ok (w.env k) (S k)) {x : C.PublicKey × Event C}
    (h : step w S x = some S') (k : C.PublicKey) : Queues.Ok (w.env k) (S' k) := by
  obtain ⟨-, -, n, hstep, rfl⟩ := step_cases h
  by_cases hk : k = x.1
  · subst hk
    rw [Function.update_self]
    exact step_ok (hn x.1) hstep
  · rw [Function.update_of_ne hk]
    exact hn k

/-- **The traces are coherent in every reachable state.** -/
theorem run_coherent (hnc : NoCollision C) (hbs : BatchSound C) (hf : FewFaults w)
    {io : C.PublicKey → Io C} {timer : C.PublicKey → T} (r : SystemRun w (start w io timer) es S)
    (hz : ZeroUncertified w (coresOf S)) : Coherent w (coresOf S) := by
  refine r.invariant_of (I := fun S => ∀ k, Queues.Ok (w.env k) (S k))
    (Q := fun S => ZeroUncertified w (coresOf S)) (P := fun S => Coherent w (coresOf S))
    (fun k => boot_ok (io k) (timer k)) ?_ ?_ (coherent_start io timer) ?_ hz
  · exact fun S x S' hn h => system_ok hn h
  · exact fun S x S' hn h hz k hk qc r hm => hz k hk qc r ((system_grows hn h k).trace hm)
  · exact fun S x S' hn hI hz h => coherent_step hnc hbs hf hn h hz hI

/-! ### The messages of honest nodes -/

theorem signed_subset (hn : ∀ k, Queues.Ok (w.env k) (S k)) {x : C.PublicKey × Event C}
    (h : step w S x = some S') (k : C.PublicKey) : signed (S k) ⊆ signed (S' k) := by
  obtain ⟨-, -, n, hstep, rfl⟩ := step_cases h
  by_cases hk : k = x.1
  swap
  · rw [Function.update_of_ne hk]
    exact List.Subset.refl _
  subst hk
  rw [Function.update_self]
  have hproposer : (S x.1).proposer.trace ⊆ n.proposer.trace := by
    rcases hc : x.2.isCore with _ | _
    · rcases task_step_cases (hn x.1) hc hstep with hf | ⟨y, -, rfl⟩
      · exact hf.trace
      · exact List.Subset.refl _
    · obtain ⟨-, -, -, -, hp⟩ := step_core_tasks hc hstep
      rw [hp]
      exact List.Subset.refl _
  intro d hd
  rcases List.mem_append.mp hd with hd | hd
  · exact List.mem_append_left _ (List.filterMap_subset _ (step_grows (hn x.1) hstep).trace hd)
  · exact List.mem_append_right _ (List.filterMap_subset _ hproposer hd)

/-- A message that could be delivered can be delivered again: the replies to requests for blocks are
such messages. -/
theorem unforged_mono (hn : ∀ k, Queues.Ok (w.env k) (S k)) {x : C.PublicKey × Event C}
    (h : step w S x = some S') {m : ConsensusMessage C} (hm : Unforged w S m) : Unforged w S' m :=
  fun y hy hh hver => signed_subset hn h y.1 (hm y hy hh hver)

omit [RoundTimer T] in
theorem qcSignatures_unforged {qc : QC C}
    (h : QcKnown w.committee (Sig w (coresOf S)) qc) : ∀ x ∈ qcSignatures qc, w.Honest x.1 →
      C.verify x.2.2 x.2.1 x.1 = true → x.2.1 ∈ signed (S x.1) := by
  intro x hx hh hver
  obtain ⟨v, hv, rfl⟩ := List.mem_map.mp hx
  exact List.mem_append_left _ (h.genuine v hv hver hh)

omit [RoundTimer T] in
theorem tcSignatures_unforged {tc : TC C}
    (h : TcSigned w.committee (Sig w (coresOf S)) tc) : ∀ x ∈ tcSignatures tc, w.Honest x.1 →
      C.verify x.2.2 x.2.1 x.1 = true → x.2.1 ∈ signed (S x.1) := by
  intro x hx hh _
  obtain ⟨v, hv, rfl⟩ := List.mem_map.mp hx
  exact List.mem_append_left _ (h.2 v hv hh)

omit [RoundTimer T] in
theorem known_of_accepted (hI : Coherent w (coresOf S)) {k : C.PublicKey} (hk : w.Honest k)
    {qc : QC C} (h : Accepted (S k).core qc) : QcKnown w.committee (Sig w (coresOf S)) qc := by
  rcases h with rfl | ⟨r, hr⟩
  · exact qcKnown_genesis
  · exact (hI.attested k hk).qc qc r hr

omit [RoundTimer T] in
/-- **What honest nodes send can be delivered.** -/
theorem unforged_sent (hn : ∀ k, Queues.Ok (w.env k) (S k)) (hI : Coherent w (coresOf S))
    {k : C.PublicKey} (hk : w.Honest k) :
    (∀ v dest, .sendVote v dest ∈ (S k).core.trace → Unforged w S (.vote v)) ∧
      (∀ t, .timeout t ∈ (S k).core.trace → Unforged w S (.timeout t)) ∧
      (∀ tc, .tc tc ∈ (S k).core.trace → Unforged w S (.tc tc)) ∧
      ∀ b, Created (S k) b → Unforged w S (.propose b) := by
  have hok := (hn k).core
  refine ⟨fun v dest hv => ?_, fun t ht => ?_, fun tc htc => ?_, fun b hb => ?_⟩
  · obtain ⟨b, hb, rfl⟩ := hok.entry _ hv
    intro x hx _ _
    rw [List.mem_singleton.mp hx]
    exact List.mem_append_left _ (List.mem_filterMap.mpr ⟨_, hb, rfl⟩)
  · obtain ⟨heq, -, hq⟩ := hok.entry _ ht
    intro x hx
    rcases List.mem_cons.mp hx with rfl | hx
    · have hauthor : t.author = k := by rw [heq]; rfl
      rw [hauthor]
      exact fun _ _ => List.mem_append_left _ (List.mem_filterMap.mpr ⟨_, ht, rfl⟩)
    · exact qcSignatures_unforged (known_of_accepted hI hk hq) x hx
  · exact tcSignatures_unforged ((hI.attested k hk).tc tc htc)
  · obtain ⟨round, qc, tc, payload, hm, rfl, -⟩ := (hn k).created b hb
    intro x hx
    rcases List.mem_cons.mp hx with rfl | hx
    · exact fun _ _ => List.mem_append_right _ (List.mem_filterMap.mpr ⟨_, hb, rfl⟩)
    · rcases List.mem_append.mp hx with hx | hx
      · exact qcSignatures_unforged (known_of_accepted hI hk (hok.entry _ hm).1) x hx
      · cases tc with
        | none => simp [Block.new] at hx
        | some tc => exact tcSignatures_unforged ((hI.attested k hk).make _ _ _ hm) x hx

end Steps

end Hotstuff.Consensus.Coherence
